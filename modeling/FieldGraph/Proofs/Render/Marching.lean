import FieldGraph.Render.Tracer

/-!
# Marching

To follow a ray is to look through a sequence of samples for the first one at which the ray ends:
the surface is close there, or the step behind it goes too far.  The sequence does not depend on how
many steps there are, so that more of them change nothing for a ray that has ended.  Steps may go
backwards or be no numbers at all: first is said of the order in which samples are taken, never of
the distances.
-/

namespace FieldGraph

/-! ## Courses -/

/-- How following a ray ends. -/
inductive Fate where
  | hit (h : Hit)
  | tooFar
  /-- There are no more steps. -/
  | exhausted
deriving DecidableEq

/-- The points at which the field is sampled along a ray, in order, and how that ends. -/
structure Course where
  samples : List Vec3
  fate : Fate
deriving DecidableEq

namespace Course

def hit? (c : Course) : Option Hit :=
  match c.fate with
  | .hit h => some h
  | .tooFar | .exhausted => none

/-- The course that samples a list of points first. -/
def after (points : List Vec3) (c : Course) : Course := ⟨points ++ c.samples, c.fate⟩

theorem after_after (ps qs : List Vec3) (c : Course) :
    (c.after qs).after ps = c.after (ps ++ qs) := by
  rw [after, after, after, List.append_assoc]

end Course

namespace Tracer

/-- Step along a ray on record. -/
def courseFrom (t : Tracer) (origin dir : Vec3) (traveled : Scalar) : Nat → Course
  | 0 => ⟨[], .exhausted⟩
  | steps + 1 =>
    let position := origin + dir * traveled
    let d := t.field position
    if d < t.settings.epsilon then ⟨[position], .hit ⟨position, traveled⟩⟩
    else
      let traveled := traveled + d * t.settings.stepSize
      if t.settings.maxDistance < traveled then ⟨[position], .tooFar⟩
      else (t.courseFrom origin dir traveled steps).after [position]

/-- Follow a ray on record. -/
def course (t : Tracer) (origin dir : Vec3) : Course :=
  t.courseFrom origin dir 0.0 t.settings.maxIterations.toNat

variable {t : Tracer} {origin dir : Vec3} {traveled : Scalar} {steps : Nat} {c : Course}

theorem courseFrom_hit (close : t.field (origin + dir * traveled) < t.settings.epsilon) :
    t.courseFrom origin dir traveled (steps + 1) =
      ⟨[origin + dir * traveled], .hit ⟨origin + dir * traveled, traveled⟩⟩ := if_pos close

theorem courseFrom_tooFar (clear : ¬ t.field (origin + dir * traveled) < t.settings.epsilon)
    (far : t.settings.maxDistance <
      traveled + t.field (origin + dir * traveled) * t.settings.stepSize) :
    t.courseFrom origin dir traveled (steps + 1) = ⟨[origin + dir * traveled], .tooFar⟩ :=
  (if_neg clear).trans (if_pos far)

theorem courseFrom_next (clear : ¬ t.field (origin + dir * traveled) < t.settings.epsilon)
    (near : ¬ t.settings.maxDistance <
      traveled + t.field (origin + dir * traveled) * t.settings.stepSize) :
    t.courseFrom origin dir traveled (steps + 1) =
      (t.courseFrom origin dir (traveled + t.field (origin + dir * traveled) * t.settings.stepSize)
        steps).after [origin + dir * traveled] := (if_neg clear).trans (if_neg near)

theorem hit?_courseFrom (t : Tracer) (origin dir : Vec3) (traveled : Scalar) (steps : Nat) :
    (t.courseFrom origin dir traveled steps).hit? = t.marchFrom origin dir traveled steps := by
  fun_induction courseFrom t origin dir traveled steps with
  | case1 => rfl
  | case2 traveled steps position d close => exact (if_pos close).symm
  | case3 traveled steps position d clear next far =>
      exact ((if_neg clear).trans (if_pos far)).symm
  | case4 traveled steps position d clear next near ih =>
      exact ih.trans ((if_neg clear).trans (if_neg near)).symm

theorem hit?_course (t : Tracer) (origin dir : Vec3) :
    (t.course origin dir).hit? = t.march origin dir := hit?_courseFrom ..

/-- Two tracers that differ in nothing that steps depend on. -/
structure StepsLike (u t : Tracer) : Prop where
  epsilon : u.settings.epsilon = t.settings.epsilon
  stepSize : u.settings.stepSize = t.settings.stepSize
  maxDistance : u.settings.maxDistance = t.settings.maxDistance

/-- The field matters at the samples only. -/
theorem StepsLike.courseFrom_eq {u : Tracer} (hu : u.StepsLike t) (traveled : Scalar) (steps : Nat)
    (h : ∀ p ∈ (t.courseFrom origin dir traveled steps).samples, u.field p = t.field p) :
    u.courseFrom origin dir traveled steps = t.courseFrom origin dir traveled steps := by
  fun_induction courseFrom t origin dir traveled steps with
  | case1 => rfl
  | case2 traveled steps position d close =>
      have hd : u.field position = d := h _ List.mem_cons_self
      exact courseFrom_hit (by rw [hu.epsilon, hd]; exact close)
  | case3 traveled steps position d clear next far =>
      have hd : u.field position = d := h _ List.mem_cons_self
      exact courseFrom_tooFar (by rw [hu.epsilon, hd]; exact clear)
        (by rw [hu.maxDistance, hu.stepSize, hd]; exact far)
  | case4 traveled steps position d clear next near ih =>
      have hd : u.field position = d := h _ List.mem_cons_self
      rw [courseFrom_next (by rw [hu.epsilon, hd]; exact clear)
        (by rw [hu.maxDistance, hu.stepSize, hd]; exact near), hu.stepSize, hd,
        ih fun p hp ↦ h p (List.mem_cons_of_mem _ hp)]

/-! ## The sequence of samples -/

/-- The distance behind a ray after a number of steps that do not end it. -/
def traveledAt (t : Tracer) (origin dir : Vec3) : Nat → Scalar
  | 0 => 0.0
  | n + 1 =>
    let traveled := t.traveledAt origin dir n
    traveled + t.field (origin + dir * traveled) * t.settings.stepSize

/-- The point that is sampled after a number of steps. -/
def sampleAt (t : Tracer) (origin dir : Vec3) (n : Nat) : Vec3 :=
  origin + dir * t.traveledAt origin dir n

/-- The first samples. -/
def samplesTo (t : Tracer) (origin dir : Vec3) (n : Nat) : List Vec3 :=
  (List.range n).map (t.sampleAt origin dir)

/-- The hit at a sample that is close to the surface. -/
def hitAt (t : Tracer) (origin dir : Vec3) (n : Nat) : Hit :=
  ⟨t.sampleAt origin dir n, t.traveledAt origin dir n⟩

/-- The surface is close to a sample. -/
def IsClose (t : Tracer) (origin dir : Vec3) (n : Nat) : Prop :=
  t.field (t.sampleAt origin dir n) < t.settings.epsilon

/-- The step from a sample goes too far. -/
def IsFar (t : Tracer) (origin dir : Vec3) (n : Nat) : Prop :=
  t.settings.maxDistance < t.traveledAt origin dir (n + 1)

/-- The ray does not end at a sample. -/
def GoesOn (t : Tracer) (origin dir : Vec3) (n : Nat) : Prop :=
  ¬ t.IsClose origin dir n ∧ ¬ t.IsFar origin dir n

theorem samplesTo_succ (t : Tracer) (origin dir : Vec3) (n : Nat) :
    t.samplesTo origin dir (n + 1) = t.samplesTo origin dir n ++ [t.sampleAt origin dir n] := by
  rw [samplesTo, samplesTo, List.range_succ, List.map_append, List.map_singleton]

theorem length_samplesTo (t : Tracer) (origin dir : Vec3) (n : Nat) :
    (t.samplesTo origin dir n).length = n := by
  rw [samplesTo, List.length_map, List.length_range]

section Step

variable {n : Nat}

theorem courseFrom_of_isClose (h : t.IsClose origin dir n) :
    t.courseFrom origin dir (t.traveledAt origin dir n) (steps + 1) =
      ⟨[t.sampleAt origin dir n], .hit (t.hitAt origin dir n)⟩ := courseFrom_hit h

theorem courseFrom_of_isFar (hc : ¬ t.IsClose origin dir n) (h : t.IsFar origin dir n) :
    t.courseFrom origin dir (t.traveledAt origin dir n) (steps + 1) =
      ⟨[t.sampleAt origin dir n], .tooFar⟩ := courseFrom_tooFar hc h

theorem courseFrom_of_goesOn (h : t.GoesOn origin dir n) :
    t.courseFrom origin dir (t.traveledAt origin dir n) (steps + 1) =
      (t.courseFrom origin dir (t.traveledAt origin dir (n + 1)) steps).after
        [t.sampleAt origin dir n] := courseFrom_next h.1 h.2

end Step

/-- A ray that goes on for a number of samples is followed from the next one. -/
theorem courseFrom_add {n : Nat} (h : ∀ j < n, t.GoesOn origin dir j) (steps : Nat) :
    t.courseFrom origin dir 0.0 (n + steps) =
      (t.courseFrom origin dir (t.traveledAt origin dir n) steps).after
        (t.samplesTo origin dir n) := by
  induction n generalizing steps with
  | zero => rw [Nat.zero_add]; rfl
  | succ n ih =>
      rw [Nat.succ_add_eq_add_succ, ih (fun j hj ↦ h j (Nat.lt_succ_of_lt hj)),
        courseFrom_of_goesOn (h n (Nat.lt_succ_self n)), Course.after_after, samplesTo_succ]

/-! ## The first sample that ends a ray -/

/-- The courses of a ray, told by the first sample at which it ends. -/
inductive Follows (t : Tracer) (origin dir : Vec3) (steps : Nat) : Course → Prop
  | hit {n : Nat} (hn : n < steps) (before : ∀ j < n, t.GoesOn origin dir j)
    (close : t.IsClose origin dir n) :
    t.Follows origin dir steps ⟨t.samplesTo origin dir (n + 1), .hit (t.hitAt origin dir n)⟩
  | tooFar {n : Nat} (hn : n < steps) (before : ∀ j < n, t.GoesOn origin dir j)
    (clear : ¬ t.IsClose origin dir n) (far : t.IsFar origin dir n) :
    t.Follows origin dir steps ⟨t.samplesTo origin dir (n + 1), .tooFar⟩
  | exhausted (before : ∀ j < steps, t.GoesOn origin dir j) :
    t.Follows origin dir steps ⟨t.samplesTo origin dir steps, .exhausted⟩

namespace Follows

/-- A ray has no other course. -/
theorem eq_courseFrom (h : t.Follows origin dir steps c) :
    t.courseFrom origin dir 0.0 steps = c := by
  cases h with
  | @hit n hn before close =>
      obtain ⟨more, rfl⟩ := Nat.exists_eq_add_of_lt hn
      rw [Nat.add_assoc, courseFrom_add before, courseFrom_of_isClose close, Course.after,
        samplesTo_succ]
  | @tooFar n hn before clear far =>
      obtain ⟨more, rfl⟩ := Nat.exists_eq_add_of_lt hn
      rw [Nat.add_assoc, courseFrom_add before, courseFrom_of_isFar clear far, Course.after,
        samplesTo_succ]
  | exhausted before =>
      rw [← Nat.add_zero steps, courseFrom_add before, courseFrom, Course.after, List.append_nil,
        Nat.add_zero]

/-- More steps change nothing for a ray that has ended. -/
theorem mono (h : t.Follows origin dir steps c) (hc : c.fate ≠ .exhausted) {more : Nat}
    (hle : steps ≤ more) : t.Follows origin dir more c := by
  cases h with
  | hit hn before close => exact .hit (Nat.lt_of_lt_of_le hn hle) before close
  | tooFar hn before clear far => exact .tooFar (Nat.lt_of_lt_of_le hn hle) before clear far
  | exhausted before => exact absurd rfl hc

/-- One step more, for a ray that has not ended. -/
theorem exists_succ_of_exhausted (before : ∀ j < steps, t.GoesOn origin dir j) :
    ∃ c, t.Follows origin dir (steps + 1) c := by
  by_cases close : t.IsClose origin dir steps
  · exact ⟨_, .hit (Nat.lt_succ_self steps) before close⟩
  by_cases far : t.IsFar origin dir steps
  · exact ⟨_, .tooFar (Nat.lt_succ_self steps) before close far⟩
  refine ⟨_, .exhausted fun j hj ↦ ?_⟩
  rcases Nat.lt_succ_iff_lt_or_eq.1 hj with hlt | rfl
  · exact before j hlt
  · exact ⟨close, far⟩

theorem exists_course (t : Tracer) (origin dir : Vec3) (steps : Nat) :
    ∃ c, t.Follows origin dir steps c := by
  induction steps with
  | zero => exact ⟨_, .exhausted fun j hj ↦ absurd hj (Nat.not_lt_zero j)⟩
  | succ steps ih =>
      obtain ⟨c, h⟩ := ih
      cases h with
      | hit hn before close => exact ⟨_, .hit (Nat.lt_succ_of_lt hn) before close⟩
      | tooFar hn before clear far => exact ⟨_, .tooFar (Nat.lt_succ_of_lt hn) before clear far⟩
      | exhausted before => exact exists_succ_of_exhausted before

theorem length_samples_le (h : t.Follows origin dir steps c) : c.samples.length ≤ steps := by
  cases h with
  | hit hn before close => exact (length_samplesTo ..).symm ▸ hn
  | tooFar hn before clear far => exact (length_samplesTo ..).symm ▸ hn
  | exhausted before => exact Nat.le_of_eq (length_samplesTo ..)

end Follows

theorem follows_course (t : Tracer) (origin dir : Vec3) :
    t.Follows origin dir t.settings.maxIterations.toNat (t.course origin dir) := by
  obtain ⟨c, h⟩ := Follows.exists_course t origin dir t.settings.maxIterations.toNat
  rw [course, h.eq_courseFrom]
  exact h

/-- The samples of a hit, of which it is the last one. -/
theorem Follows.exists_of_hit (h : t.Follows origin dir steps c) {hit : Hit}
    (hc : c.hit? = some hit) :
    ∃ n < steps, c = ⟨t.samplesTo origin dir (n + 1), .hit hit⟩ ∧ hit = t.hitAt origin dir n ∧
      (∀ j < n, t.GoesOn origin dir j) ∧ t.IsClose origin dir n := by
  cases h with
  | @hit n hn before close =>
      obtain rfl : t.hitAt origin dir n = hit := Option.some.inj hc
      exact ⟨n, hn, rfl, rfl, before, close⟩
  | tooFar | exhausted => cases hc

namespace StepsLike

variable {u : Tracer}

theorem course_eq (hu : u.StepsLike t) (hm : u.settings.maxIterations = t.settings.maxIterations)
    (h : ∀ p ∈ (t.course origin dir).samples, u.field p = t.field p) :
    u.course origin dir = t.course origin dir := by
  rw [course, hm]
  exact hu.courseFrom_eq 0.0 _ h

/-- A course that has ended is that of every tracer that may take more steps. -/
theorem course_eq_of_le (hu : u.StepsLike t) (hf : u.field = t.field)
    (hm : t.settings.maxIterations ≤ u.settings.maxIterations)
    (hc : (t.course origin dir).fate ≠ .exhausted) :
    u.course origin dir = t.course origin dir := by
  have hfollows := (follows_course t origin dir).mono hc (UInt32.le_iff_toNat_le.1 hm)
  calc
    u.course origin dir = t.courseFrom origin dir 0.0 u.settings.maxIterations.toNat :=
      hu.courseFrom_eq 0.0 _ fun p _ ↦ congrFun hf p
    _ = t.course origin dir := hfollows.eq_courseFrom

end StepsLike

/-! ## Hits and misses -/

/-- A march finds the first sample that is close to the surface, if no step before it goes too far:
the limit is compared after every step, with the distance that the steps have added up to.  The
field matters at the samples only, of which there is at most one for a step; and a ray that has
ended has the same samples and the same end if more steps are allowed. -/
theorem march_first (t : Tracer) (origin dir : Vec3) :
    let course := t.course origin dir
    course.hit? = t.march origin dir ∧ course.samples.length ≤ t.settings.maxIterations.toNat ∧
      t.Follows origin dir t.settings.maxIterations.toNat course ∧
      (∀ field : Field, (∀ p ∈ course.samples, field p = t.field p) →
        let other : Tracer := { t with field }
        other.course origin dir = course ∧ other.march origin dir = t.march origin dir) ∧
      (∀ hit, t.march origin dir = some hit →
        hit.position = origin + dir * hit.traveled ∧ t.field hit.position < t.settings.epsilon ∧
          ∃ n, hit = ⟨t.sampleAt origin dir n, t.traveledAt origin dir n⟩ ∧
            course.samples = (List.range (n + 1)).map (t.sampleAt origin dir) ∧
            ∀ j < n, ¬ t.field (t.sampleAt origin dir j) < t.settings.epsilon ∧
              ¬ t.settings.maxDistance < t.traveledAt origin dir (j + 1)) ∧
      ∀ m, t.settings.maxIterations ≤ m →
        let longer : Tracer := { t with settings := { t.settings with maxIterations := m } }
        (∀ hit, t.march origin dir = some hit →
          longer.march origin dir = some hit ∧ longer.course origin dir = course) ∧
        (course.fate = .tooFar →
          longer.march origin dir = none ∧ longer.course origin dir = course) := by
  intro course
  have hfollows := follows_course t origin dir
  have hmarch : course.hit? = t.march origin dir := hit?_course t origin dir
  refine ⟨hmarch, hfollows.length_samples_le, hfollows, fun field h ↦ ?_, fun hit hhit ↦ ?_,
    fun m hm ↦ ?_⟩
  · intro other
    have hother : other.StepsLike t := ⟨rfl, rfl, rfl⟩
    have hcourse : other.course origin dir = course := hother.course_eq rfl h
    exact ⟨hcourse, by rw [← hit?_course, hcourse, hmarch]⟩
  · obtain ⟨n, -, hc, rfl, before, close⟩ := hfollows.exists_of_hit (hmarch.trans hhit)
    exact ⟨rfl, close, n, rfl, congrArg Course.samples hc, before⟩
  · intro longer
    have hlonger : longer.StepsLike t := ⟨rfl, rfl, rfl⟩
    have hcourse (hc : course.fate ≠ .exhausted) : longer.course origin dir = course :=
      hlonger.course_eq_of_le rfl hm hc
    refine ⟨fun hit hhit ↦ ?_, fun hfar ↦ ?_⟩
    · obtain ⟨n, -, hc, -⟩ := hfollows.exists_of_hit (hmarch.trans hhit)
      have hfate : course.fate = .hit hit := congrArg Course.fate hc
      have hsame := hcourse (by rw [hfate]; exact Fate.noConfusion)
      exact ⟨by rw [← hit?_course, hsame, hmarch, hhit], hsame⟩
    · have hsame := hcourse (by rw [hfar]; exact Fate.noConfusion)
      exact ⟨by rw [← hit?_course, hsame, Course.hit?, hfar], hsame⟩

/-- A wall that is met at the second sample, and lost at the first step away from it. -/
theorem march_first_wall :
    let t := ofSettings (fun p ↦ 1.0 - p.x) { maxIterations := 2, maxDistance := 1.0 }
    let longer : Tracer := { t with settings := { t.settings with maxIterations := 256 } }
    let away : Vec3 := ⟨-2.0, 0.0, 0.0⟩
    (t.course Vec3.zero Vec3.unitX).samples = [Vec3.zero, Vec3.unitX] ∧
      longer.march Vec3.zero Vec3.unitX = some ⟨Vec3.unitX, 1.0⟩ ∧
      longer.course Vec3.zero away = ⟨[Vec3.zero, away], .tooFar⟩ := by
  intro t longer away
  have hle : t.settings.maxIterations ≤ 256 := by decide
  have hhit : t.march Vec3.zero Vec3.unitX = some ⟨Vec3.unitX, 1.0⟩ := by decide +kernel
  have hfar : t.course Vec3.zero away = ⟨[Vec3.zero, away], .tooFar⟩ := by decide +kernel
  obtain ⟨-, -, -, -, -, hmore⟩ := march_first t Vec3.zero Vec3.unitX
  obtain ⟨-, -, -, -, -, hmore'⟩ := march_first t Vec3.zero away
  refine ⟨by decide +kernel, ((hmore 256 hle).1 _ hhit).1, ?_⟩
  rw [((hmore' 256 hle).2 (congrArg Course.fate hfar)).2, hfar]

end Tracer

end FieldGraph
