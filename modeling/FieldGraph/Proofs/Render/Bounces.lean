import FieldGraph.Proofs.Render.Marching
import Mathlib.Data.List.Chain

/-!
# Bounces

What is seen along a ray depends on the reflections that are left, not on how many there were or may
be.  Shading is told once more by recursion on that number, with the reflected rays written down;
the number of reflections that are allowed is not read by it, and neither is the depth.
-/

namespace FieldGraph

/-- A ray, by where it starts and where it goes. -/
structure Ray where
  origin : Vec3
  dir : Vec3
deriving DecidableEq

/-- What is seen along a ray, and the reflected rays that are followed for it. -/
structure Sight where
  color : Vec3
  reflected : List Ray
deriving DecidableEq

namespace Tracer

/-- The ray that goes on from a hit. -/
def bounce (t : Tracer) (dir : Vec3) (hit : Hit) : Ray :=
  let n := t.normal hit.position
  ⟨hit.position + n * t.settings.reflectionOffset, Vec3.reflect dir n⟩

/-- The surface at a hit reflects. -/
def Reflects (t : Tracer) (hit : Hit) : Prop :=
  0.0 < (t.environment.materialAt hit.position).reflectivity

instance (t : Tracer) (hit : Hit) : Decidable (t.Reflects hit) :=
  inferInstanceAs (Decidable ((0.0 : Scalar) < _))

/-- What is seen at a hit, given what is seen along the reflected ray. -/
def mixAt (t : Tracer) (dir : Vec3) (hit : Hit) (reflection : Vec3) : Vec3 :=
  t.mix dir hit (t.normal hit.position) reflection

/-- Look along a ray with a number of reflections left. -/
def sight (t : Tracer) (r : Ray) : Nat → Sight
  | 0 =>
    match t.march r.origin r.dir with
    | none => ⟨t.environment.skyColor, []⟩
    | some hit => ⟨t.mixAt r.dir hit t.environment.skyColor, []⟩
  | left + 1 =>
    match t.march r.origin r.dir with
    | none => ⟨t.environment.skyColor, []⟩
    | some hit =>
      if t.Reflects hit then
        let next := t.bounce r.dir hit
        let s := t.sight next left
        ⟨t.mixAt r.dir hit s.color, next :: s.reflected⟩
      else ⟨t.mixAt r.dir hit t.environment.skyColor, []⟩

section Shade

variable {t : Tracer} {r : Ray} {hit : Hit} {depth : Nat}

theorem shade_of_none (h : t.march r.origin r.dir = none) (depth : Nat) :
    t.shade r.origin r.dir depth = t.environment.skyColor := by
  rw [shade, h]

theorem shade_of_reflects (h : t.march r.origin r.dir = some hit) (hr : t.Reflects hit)
    (hd : depth < t.settings.reflectionDepth.toNat) :
    t.shade r.origin r.dir depth = t.mixAt r.dir hit
      (t.shade (t.bounce r.dir hit).origin (t.bounce r.dir hit).dir (depth + 1)) := by
  rw [shade, h]
  exact congrArg (t.mixAt r.dir hit) (dif_pos (And.intro hr hd))

theorem shade_of_not_reflects (h : t.march r.origin r.dir = some hit)
    (hstop : ¬ (t.Reflects hit ∧ depth < t.settings.reflectionDepth.toNat)) :
    t.shade r.origin r.dir depth = t.mixAt r.dir hit t.environment.skyColor := by
  rw [shade, h]
  exact congrArg (t.mixAt r.dir hit) (dif_neg hstop)

end Shade

/-- The shade after some reflections is what is seen with the rest of them. -/
theorem color_sight (t : Tracer) (r : Ray) (depth : Nat) :
    (t.sight r (t.settings.reflectionDepth.toNat - depth)).color =
      t.shade r.origin r.dir depth := by
  obtain ⟨left, hleft⟩ : ∃ left, t.settings.reflectionDepth.toNat - depth = left := ⟨_, rfl⟩
  rw [hleft]
  induction left generalizing r depth with
  | zero =>
      rw [sight]
      cases h : t.march r.origin r.dir with
      | none => exact (shade_of_none h depth).symm
      | some hit => exact (shade_of_not_reflects h fun hr ↦ by omega).symm
  | succ left ih =>
      rw [sight]
      cases h : t.march r.origin r.dir with
      | none => exact (shade_of_none h depth).symm
      | some hit =>
          dsimp only
          by_cases hr : t.Reflects hit
          · rw [if_pos hr, shade_of_reflects h hr (by omega),
              ← ih (t.bounce r.dir hit) (depth + 1) (by omega)]
          · rw [if_neg hr, shade_of_not_reflects h fun hmore ↦ hr hmore.1]

/-! ## Reflected rays -/

/-- A ray is reflected into another one. -/
def BouncesTo (t : Tracer) (r next : Ray) : Prop :=
  ∃ hit, t.march r.origin r.dir = some hit ∧ t.Reflects hit ∧ next = t.bounce r.dir hit

section Sight

variable {t : Tracer} {r next : Ray}

theorem reflected_sight_zero (t : Tracer) (r : Ray) : (t.sight r 0).reflected = [] := by
  rw [sight]
  split <;> rfl

theorem reflected_sight_succ (h : t.BouncesTo r next) (left : Nat) :
    (t.sight r (left + 1)).reflected = next :: (t.sight next left).reflected := by
  obtain ⟨hit, hmarch, hr, rfl⟩ := h
  rw [sight, hmarch]
  exact congrArg Sight.reflected (if_pos hr)

theorem reflected_sight_of_ends (h : ∀ next, ¬ t.BouncesTo r next) (left : Nat) :
    (t.sight r left).reflected = [] := by
  cases left with
  | zero => exact reflected_sight_zero t r
  | succ left =>
      rw [sight]
      split
      · rfl
      next hit hmarch =>
        exact congrArg Sight.reflected (if_neg fun hr ↦ h _ ⟨hit, hmarch, hr, rfl⟩)

end Sight

/-- The reflected rays follow one another.  There are as many as are left, or the last one is not
reflected. -/
structure Reflections (t : Tracer) (left : Nat) (r : Ray) (rays : List Ray) : Prop where
  length_le : rays.length ≤ left
  isChain : (r :: rays).IsChain t.BouncesTo
  ends : rays.length < left →
    ∀ next, ¬ t.BouncesTo ((r :: rays).getLast (List.cons_ne_nil r rays)) next

theorem reflections_sight (t : Tracer) (r : Ray) (left : Nat) :
    t.Reflections left r (t.sight r left).reflected := by
  induction left generalizing r with
  | zero =>
      rw [reflected_sight_zero]
      exact ⟨Nat.le_refl 0, .singleton r, fun h ↦ absurd h (Nat.lt_irrefl 0)⟩
  | succ left ih =>
      by_cases h : ∃ next, t.BouncesTo r next
      · obtain ⟨next, hnext⟩ := h
        obtain ⟨hlength, hchain, hends⟩ := ih next
        rw [reflected_sight_succ hnext]
        refine ⟨Nat.succ_le_succ hlength, .cons_cons hnext hchain, fun hlt ↦ ?_⟩
        rw [List.getLast_cons_cons]
        exact hends (Nat.lt_of_succ_lt_succ hlt)
      · have hend := not_exists.1 h
        rw [reflected_sight_of_ends hend]
        exact ⟨Nat.zero_le _, .singleton r, fun _ ↦ hend⟩

/-! ## Other limits -/

section Limit

/-- The tracer with another number of reflections that are allowed. -/
def withDepth (t : Tracer) (limit : UInt32) : Tracer :=
  { t with settings := { t.settings with reflectionDepth := limit } }

variable (t : Tracer) (limit : UInt32)

theorem march_withDepth (origin dir : Vec3) :
    (t.withDepth limit).march origin dir = t.march origin dir := by
  have hlike : (t.withDepth limit).StepsLike t := ⟨rfl, rfl, rfl⟩
  rw [← hit?_course, ← hit?_course, hlike.course_eq rfl fun _ _ ↦ rfl]

theorem occlusionFrom_withDepth (p n : Vec3) (i : UInt32) (weight occlusion : Scalar)
    (samples : Nat) : (t.withDepth limit).occlusionFrom p n i weight occlusion samples =
      t.occlusionFrom p n i weight occlusion samples := by
  induction samples generalizing i weight occlusion with
  | zero => rfl
  | succ samples ih => exact ih ..

theorem shadowFrom_withDepth (origin : Vec3) (shade along : Scalar) (steps : Nat) :
    (t.withDepth limit).shadowFrom origin shade along steps =
      t.shadowFrom origin shade along steps := by
  induction steps generalizing shade along with
  | zero => rfl
  | succ steps ih =>
      rw [shadowFrom, shadowFrom]
      simp only [ih]
      rfl

theorem mixAt_withDepth (dir : Vec3) (hit : Hit) (reflection : Vec3) :
    (t.withDepth limit).mixAt dir hit reflection = t.mixAt dir hit reflection := by
  have hocclusion (p n : Vec3) :
      (t.withDepth limit).ambientOcclusion p n = t.ambientOcclusion p n := by
    rw [ambientOcclusion, occlusionFrom_withDepth]
    rfl
  have hshadow (p n : Vec3) : (t.withDepth limit).softShadow p n = t.softShadow p n := by
    rw [softShadow, shadowFrom_withDepth]
    rfl
  rw [mixAt, mix, hocclusion, hshadow]
  rfl

/-- A sight does not depend on the number of reflections that are allowed. -/
theorem sight_withDepth (r : Ray) (left : Nat) :
    (t.withDepth limit).sight r left = t.sight r left := by
  induction left generalizing r with
  | zero =>
      rw [sight, sight, march_withDepth]
      simp only [mixAt_withDepth]
      rfl
  | succ left ih =>
      rw [sight, sight, march_withDepth]
      simp only [mixAt_withDepth, ih]
      rfl

end Limit

/-- What is seen with as many reflections left is the same. -/
theorem shade_withDepth (t : Tracer) (r : Ray) {limit limit' : UInt32} {depth depth' : Nat}
    (h : limit.toNat - depth = limit'.toNat - depth') :
    (t.withDepth limit).shade r.origin r.dir depth =
      (t.withDepth limit').shade r.origin r.dir depth' := by
  calc
    _ = ((t.withDepth limit).sight r (limit.toNat - depth)).color := (color_sight _ r depth).symm
    _ = ((t.withDepth limit').sight r (limit'.toNat - depth')).color := by
      rw [sight_withDepth, sight_withDepth, h]
    _ = _ := color_sight _ r depth'

/-- Only the reflections that are left matter: a shade does not change if as many more are allowed
as have been taken already.  When none is left, the shade is the one without reflections.  At most
as many rays are reflected as are left, each at the hit of the one before. -/
theorem shade_remaining (field : Field) (settings : RenderSettings) (r : Ray) :
    let tracer (limit : Nat) :=
      ofSettings field { settings with reflectionDepth := UInt32.ofNat limit }
    (∀ depth limit k : Nat, depth + k < UInt32.size → limit + k < UInt32.size →
      (tracer (limit + k)).shade r.origin r.dir (depth + k) =
        (tracer limit).shade r.origin r.dir depth) ∧
      (∀ depth limit : Nat, limit < UInt32.size → limit ≤ depth →
        (tracer limit).shade r.origin r.dir depth = (tracer 0).shade r.origin r.dir 0) ∧
      ∀ depth limit : Nat, limit < UInt32.size →
        let s := (tracer limit).sight r (limit - depth)
        s.color = (tracer limit).shade r.origin r.dir depth ∧
          s.reflected.length ≤ limit - depth ∧
          (tracer limit).Reflections (limit - depth) r s.reflected := by
  intro tracer
  have hlimit {limit : Nat} (h : limit < UInt32.size) : (UInt32.ofNat limit).toNat = limit :=
    UInt32.toNat_ofNat_of_lt h
  refine ⟨fun depth limit k _ hk ↦ ?_, fun depth limit h hle ↦ ?_, fun depth limit h ↦ ?_⟩
  · refine (ofSettings field settings).shade_withDepth r ?_
    rw [hlimit hk, hlimit (Nat.lt_of_le_of_lt (Nat.le_add_right ..) hk), Nat.add_sub_add_right]
  · refine (ofSettings field settings).shade_withDepth r ?_
    rw [hlimit h, Nat.sub_eq_zero_of_le hle]
    rfl
  · have hallowed : (tracer limit).settings.reflectionDepth.toNat = limit := hlimit h
    have hcolor := color_sight (tracer limit) r depth
    rw [hallowed] at hcolor
    have hsight := reflections_sight (tracer limit) r (limit - depth)
    exact ⟨hcolor, hsight.length_le, hsight⟩

/-- Between a floor and a ceiling a ray is reflected once more after three of four reflections. -/
theorem shade_remaining_corridor :
    let tracer (limit : Nat) :=
      ofSettings (fun p ↦ Scalar.min p.y (2.0 - p.y)) { reflectionDepth := UInt32.ofNat limit }
    let r : Ray := ⟨Vec3.unitY, -Vec3.unitY⟩
    (tracer 4).shade r.origin r.dir 3 = (tracer 1).shade r.origin r.dir 0 ∧
      ((tracer 4).sight r (4 - 3)).reflected.length = 1 := by
  intro tracer r
  obtain ⟨hsame, -, hsight⟩ :=
    shade_remaining (fun p ↦ Scalar.min p.y (2.0 - p.y)) {} ⟨Vec3.unitY, -Vec3.unitY⟩
  obtain ⟨-, hle, -⟩ := hsight 3 4 (by decide)
  have hmarch : (tracer 4).march r.origin r.dir = some ⟨Vec3.zero, 1.0⟩ := by decide +kernel
  -- Both materials reflect, so that it does not matter in which cell the hit is.
  have hr : (tracer 4).Reflects ⟨Vec3.zero, 1.0⟩ := by
    rw [Reflects, Environment.materialAt]
    split <;> decide +kernel
  have hbounce := reflected_sight_succ ⟨_, hmarch, hr, rfl⟩ 0
  refine ⟨hsame 0 1 3 (by decide) (by decide), Nat.le_antisymm hle ?_⟩
  rw [hbounce]
  exact Nat.succ_le_succ (Nat.zero_le _)

end Tracer

end FieldGraph
