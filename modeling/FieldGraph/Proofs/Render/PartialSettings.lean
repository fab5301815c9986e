import FieldGraph.Proofs.Json.Records
import FieldGraph.Proofs.Json.Spelling
import FieldGraph.Render.SettingsFile

/-!
# Partial settings files

A settings file is made of records, one inside the other.  A member that is left out of one of them
leaves its field at the default of the record that has the field, whatever the records around it have
for defaults; the order of members does not matter, and members of other names are skipped.
-/

namespace FieldGraph

open Json

/-! ## Defaults -/

/-- The known members of a camera, and what a camera is without them. -/
def Camera.fallbacks : List (String × (Camera → Camera)) :=
  let d : Camera := default
  [("origin", fun c ↦ { c with origin := d.origin }),
    ("target", fun c ↦ { c with target := d.target }),
    ("up", fun c ↦ { c with up := d.up }),
    ("fov", fun c ↦ { c with fov := d.fov }),
    ("legacy_basis", fun c ↦ { c with rightFromOrigin := d.rightFromOrigin })]

/-- The known members of a material, and what a material is without them. -/
def Material.fallbacks : List (String × (Material → Material)) :=
  let d : Material := default
  [("color", fun m ↦ { m with color := d.color }),
    ("specular", fun m ↦ { m with specular := d.specular }),
    ("reflectivity", fun m ↦ { m with reflectivity := d.reflectivity })]

/-- The known members of an environment, and what an environment is without them. -/
def Environment.fallbacks : List (String × (Environment → Environment)) :=
  let d : Environment := default
  [("light_direction", fun e ↦ { e with lightDirection := d.lightDirection }),
    ("ambient", fun e ↦ { e with ambient := d.ambient }),
    ("shininess", fun e ↦ { e with shininess := d.shininess }),
    ("materials", fun e ↦ { e with evenMaterial := d.evenMaterial, oddMaterial := d.oddMaterial }),
    ("checker_period", fun e ↦ { e with checkerPeriod := d.checkerPeriod }),
    ("sky_color", fun e ↦ { e with skyColor := d.skyColor }),
    ("fog_distance", fun e ↦ { e with fogDistance := d.fogDistance }),
    ("fog_falloff", fun e ↦ { e with fogFalloff := d.fogFalloff }),
    ("ao_samples", fun e ↦ { e with occlusionSamples := d.occlusionSamples }),
    ("ao_step", fun e ↦ { e with occlusionStep := d.occlusionStep }),
    ("ao_strength", fun e ↦ { e with occlusionStrength := d.occlusionStrength }),
    ("shadow_softness", fun e ↦ { e with shadowSoftness := d.shadowSoftness }),
    ("shadow_bias", fun e ↦ { e with shadowBias := d.shadowBias }),
    ("shadow_iterations", fun e ↦ { e with shadowIterations := d.shadowIterations }),
    ("shadow_distance", fun e ↦ { e with shadowDistance := d.shadowDistance })]

/-- The known members of settings, and what settings are without them. -/
def RenderSettings.fallbacks : List (String × (RenderSettings → RenderSettings)) :=
  let d : RenderSettings := default
  [("max_iterations", fun s ↦ { s with maxIterations := d.maxIterations }),
    ("max_distance", fun s ↦ { s with maxDistance := d.maxDistance }),
    ("epsilon", fun s ↦ { s with epsilon := d.epsilon }),
    ("step_size", fun s ↦ { s with stepSize := d.stepSize }),
    ("reflection_depth", fun s ↦ { s with reflectionDepth := d.reflectionDepth }),
    ("reflection_offset", fun s ↦ { s with reflectionOffset := d.reflectionOffset }),
    ("environment", fun s ↦ { s with environment := d.environment })]

/-- The known members of a request, and what a request is without them. -/
def RenderRequest.fallbacks : List (String × (RenderRequest → RenderRequest)) :=
  let d : RenderRequest := default
  [("width", fun r ↦ { r with width := d.width }),
    ("height", fun r ↦ { r with height := d.height }),
    ("workers", fun r ↦ { r with workers := d.workers }),
    ("format", fun r ↦ { r with format := d.format }),
    ("camera", fun r ↦ { r with camera := d.camera }),
    ("settings", fun r ↦ { r with settings := d.settings })]

/-! ## Members that are records -/

section Members

variable {j j' : Json} {before after : List (JsonText × Json)}

theorem RenderRequest.decode?_camera {r : RenderRequest} {f : Camera → Camera}
    (hj : ∀ c, Camera.codec.decode? j = some c → Camera.codec.decode? j' = some (f c))
    (h : codec.decode? (.object (before ++ (some "camera", j) :: after)) = some r) :
    codec.decode? (.object (before ++ (some "camera", j') :: after)) =
      some { r with camera := f r.camera } := by
  refine decode?_replace (r := fun r : RenderRequest ↦ { r with camera := f r.camera })
    (by decide) (List.mem_of_getElem? (i := 4) rfl) (fun _ _ ↦ rfl) ?_ hj h
  repeat first | exact .nil | refine .own ?_ | refine .other (fun _ _ ↦ rfl) ?_

theorem RenderRequest.decode?_settings {r : RenderRequest} {f : RenderSettings → RenderSettings}
    (hj : ∀ s, RenderSettings.codec.decode? j = some s → RenderSettings.codec.decode? j' = some (f s))
    (h : codec.decode? (.object (before ++ (some "settings", j) :: after)) = some r) :
    codec.decode? (.object (before ++ (some "settings", j') :: after)) =
      some { r with settings := f r.settings } := by
  refine decode?_replace (r := fun r : RenderRequest ↦ { r with settings := f r.settings })
    (by decide) (List.mem_of_getElem? (i := 5) rfl) (fun _ _ ↦ rfl) ?_ hj h
  repeat first | exact .nil | refine .own ?_ | refine .other (fun _ _ ↦ rfl) ?_

theorem RenderSettings.decode?_environment {s : RenderSettings} {f : Environment → Environment}
    (hj : ∀ e, Environment.codec.decode? j = some e → Environment.codec.decode? j' = some (f e))
    (h : codec.decode? (.object (before ++ (some "environment", j) :: after)) = some s) :
    codec.decode? (.object (before ++ (some "environment", j') :: after)) =
      some { s with environment := f s.environment } := by
  refine decode?_replace (r := fun s : RenderSettings ↦ { s with environment := f s.environment })
    (by decide) (List.mem_of_getElem? (i := 6) rfl) (fun _ _ ↦ rfl) ?_ hj h
  repeat first | exact .nil | refine .own ?_ | refine .other (fun _ _ ↦ rfl) ?_

theorem Environment.decode?_materials {e : Environment} {g : Material × Material → Material × Material}
    (hj : ∀ ms, (pair Material.codec).decode? j = some ms →
      (pair Material.codec).decode? j' = some (g ms))
    (h : codec.decode? (.object (before ++ (some "materials", j) :: after)) = some e) :
    codec.decode? (.object (before ++ (some "materials", j') :: after)) =
      some { e with evenMaterial := (g (e.evenMaterial, e.oddMaterial)).1
                    oddMaterial := (g (e.evenMaterial, e.oddMaterial)).2 } := by
  refine decode?_replace (r := fun e : Environment ↦
    { e with evenMaterial := (g (e.evenMaterial, e.oddMaterial)).1
             oddMaterial := (g (e.evenMaterial, e.oddMaterial)).2 })
    (by decide) (List.mem_of_getElem? (i := 3) rfl) (fun _ _ ↦ rfl) ?_ hj h
  repeat first | exact .nil | refine .own ?_ | refine .other (fun _ _ ↦ rfl) ?_

end Members

/-! ## Records in records -/

/-- The records that settings files are made of. -/
inductive SettingsRecord where
  | request
  | settings
  | environment
  | material
  | camera

namespace SettingsRecord

abbrev Value : SettingsRecord → Type
  | request => RenderRequest
  | settings => RenderSettings
  | environment => Environment
  | material => Material
  | camera => Camera

def codec : (k : SettingsRecord) → Codec k.Value
  | request => RenderRequest.codec
  | settings => RenderSettings.codec
  | environment => Environment.codec
  | material => Material.codec
  | camera => Camera.codec

def fallbacks : (k : SettingsRecord) → List (String × (k.Value → k.Value))
  | request => RenderRequest.fallbacks
  | settings => RenderSettings.fallbacks
  | environment => Environment.fallbacks
  | material => Material.fallbacks
  | camera => Camera.fallbacks

theorem fallsBack (k : SettingsRecord) :
    ∃ default fields, k.codec.FallsBack default fields k.fallbacks := by
  cases k
  all_goals
    refine ⟨default, _, rfl, rfl, by decide, ?_⟩
    -- a fallback overwrites its own field, and can be exchanged with setting any other
    repeat first
      | exact .nil
      | refine .cons ⟨rfl, RecordField.restores_of rfl fun _ _ ↦ rfl, ?_⟩ ?_
      | refine .own ?_
      | refine .other (fun _ _ ↦ rfl) ?_

variable {k k' : SettingsRecord}

/-- The place of a record in the text of another: the members around it, at each level. -/
inductive Path (k : SettingsRecord) : SettingsRecord → Type
  | here : Path k k
  | camera (p : Path k request) (before after : List (JsonText × Json)) : Path k camera
  | settings (p : Path k request) (before after : List (JsonText × Json)) : Path k settings
  | environment (p : Path k settings) (before after : List (JsonText × Json)) : Path k environment
  | evenMaterial (p : Path k environment) (before after : List (JsonText × Json)) (odd : Json) :
    Path k material
  | oddMaterial (p : Path k environment) (before after : List (JsonText × Json)) (even : Json) :
    Path k material

namespace Path

/-- The tree of the outer record, with the tree of the inner record in its place. -/
def fill : {k' : SettingsRecord} → Path k k' → Json → Json
  | _, here, j => j
  | _, camera p before after, j => p.fill (.object (before ++ (some "camera", j) :: after))
  | _, settings p before after, j => p.fill (.object (before ++ (some "settings", j) :: after))
  | _, environment p before after, j =>
    p.fill (.object (before ++ (some "environment", j) :: after))
  | _, evenMaterial p before after odd, j =>
    p.fill (.object (before ++ (some "materials", .array [j, odd]) :: after))
  | _, oddMaterial p before after even, j =>
    p.fill (.object (before ++ (some "materials", .array [even, j]) :: after))

/-- Change the inner record within the outer one. -/
def lift : {k' : SettingsRecord} → Path k k' → (k'.Value → k'.Value) → k.Value → k.Value
  | _, here, f => f
  | _, camera p _ _, f => p.lift fun r ↦ { r with camera := f r.camera }
  | _, settings p _ _, f => p.lift fun r ↦ { r with settings := f r.settings }
  | _, environment p _ _, f => p.lift fun s ↦ { s with environment := f s.environment }
  | _, evenMaterial p _ _ _, f => p.lift fun e ↦ { e with evenMaterial := f e.evenMaterial }
  | _, oddMaterial p _ _ _, f => p.lift fun e ↦ { e with oddMaterial := f e.oddMaterial }

theorem lift_id (p : Path k k') : p.lift id = id := by
  induction p with
  | here => rfl
  | camera p _ _ ih | settings p _ _ ih | environment p _ _ ih | evenMaterial p _ _ _ ih
  | oddMaterial p _ _ _ ih => exact ih

theorem spellable_fill {p : Path k k'} {j j' : Json} (h : Spellable (p.fill j))
    (hj : Spellable j → Spellable j') : Spellable (p.fill j') := by
  have hobject {before after : List (JsonText × Json)} {name : JsonText} {j j' : Json}
      (hj : Spellable j → Spellable j') (h : Spellable (.object (before ++ (name, j) :: after))) :
      Spellable (.object (before ++ (name, j') :: after)) := by
    have hmembers := h.members
    rw [List.forall_mem_append, List.forall_mem_cons] at hmembers
    obtain ⟨hbefore, hmember, hafter⟩ := hmembers
    exact .object (List.forall_mem_append.2 ⟨hbefore, List.forall_mem_cons.2 ⟨hj hmember, hafter⟩⟩)
  induction p generalizing j j' with
  | here => exact hj h
  | camera p _ _ ih | settings p _ _ ih | environment p _ _ ih => exact ih h (hobject hj)
  | evenMaterial p _ _ odd ih =>
    refine ih h (hobject fun hpair ↦ ?_)
    have hitems := hpair.items
    simp only [List.forall_mem_cons] at hitems
    exact .array (by simpa using ⟨hj hitems.1, hitems.2.1⟩)
  | oddMaterial p _ _ even ih =>
    refine ih h (hobject fun hpair ↦ ?_)
    have hitems := hpair.items
    simp only [List.forall_mem_cons] at hitems
    exact .array (by simpa using ⟨hitems.1, hj hitems.2.1⟩)

/-- A change of the inner record is a change within the outer one. -/
theorem decode?_fill {p : Path k k'} {j j' : Json} {f : k'.Value → k'.Value}
    (hj : ∀ x, k'.codec.decode? j = some x → k'.codec.decode? j' = some (f x)) {v : k.Value}
    (h : k.codec.decode? (p.fill j) = some v) :
    k.codec.decode? (p.fill j') = some (p.lift f v) := by
  induction p generalizing j j' v with
  | here => exact hj v h
  | camera p before after ih => exact ih (fun x ↦ RenderRequest.decode?_camera hj) h
  | settings p before after ih => exact ih (fun x ↦ RenderRequest.decode?_settings hj) h
  | environment p before after ih => exact ih (fun x ↦ RenderSettings.decode?_environment hj) h
  | evenMaterial p before after odd ih =>
    refine ih (fun x ↦ Environment.decode?_materials (g := Prod.map f id) fun ms hms ↦ ?_) h
    obtain ⟨even, heven, odd, hodd, rfl⟩ := decode?_pair_eq_some_iff.1 hms
    exact decode?_pair_eq_some_iff.2 ⟨_, hj _ heven, _, hodd, rfl⟩
  | oddMaterial p before after even ih =>
    refine ih (fun x ↦ Environment.decode?_materials (g := Prod.map id f) fun ms hms ↦ ?_) h
    obtain ⟨even, heven, odd, hodd, rfl⟩ := decode?_pair_eq_some_iff.1 hms
    exact decode?_pair_eq_some_iff.2 ⟨_, heven, _, hj _ hodd, rfl⟩

end Path

/-! ## Partial texts -/

/-- A text that is accepted remains so if a record in it, at whatever depth, is written differently.
Without one of its known members, the record falls back to its own default for the field, and nothing
else changes.  If its members are permuted, or one of another name is inserted, nothing changes. -/
theorem accepts_partial {k k' : SettingsRecord} (p : Path k k') (text : String) (v : k.Value)
    (hv : k.codec.read? text = some v) :
    (∀ before name j after reset, (name, reset) ∈ k'.fallbacks →
      parse? text = some (p.fill (.object (before ++ (some name, j) :: after))) →
        k.codec.Accepts (p.fill (.object (before ++ after))) (p.lift reset v)) ∧
    (∀ members members', members.Perm members' → parse? text = some (p.fill (.object members)) →
      k.codec.Accepts (p.fill (.object members')) v) ∧
    ∀ before name j after, name ∉ k'.fallbacks.map Prod.fst → (∃ text, parse? text = some j) →
      parse? text = some (p.fill (.object (before ++ after))) →
        k.codec.Accepts (p.fill (.object (before ++ (some name, j) :: after))) v := by
  obtain ⟨default, fields, hfalls⟩ := k'.fallsBack
  have haccepts {j j' : Json} (f : k'.Value → k'.Value) (htext : parse? text = some (p.fill j))
      (hspell : Spellable j → Spellable j')
      (hj : ∀ x, k'.codec.decode? j = some x → k'.codec.decode? j' = some (f x)) :
      k.codec.Accepts (p.fill j') (p.lift f v) := by
    have hdecode : k.codec.decode? (p.fill j) = some v := by
      rwa [Codec.read?, htext, Option.bind_some] at hv
    exact Codec.accepts_of_spellable
      (Path.spellable_fill (exists_parse?_eq_iff.1 ⟨text, htext⟩) hspell) (Path.decode?_fill hj hdecode)
  refine ⟨fun before name j after reset hreset htext ↦ ?_, fun members members' hperm htext ↦ ?_,
    fun before name j after hname hj htext ↦ ?_⟩
  · refine haccepts reset htext (fun h ↦ .object fun m hm ↦ h.members m ?_) fun x ↦
      hfalls.decode?_delete hreset
    rw [List.mem_append] at hm ⊢
    exact hm.imp_right (List.mem_cons_of_mem _)
  · have hsame := haccepts id htext (fun h ↦ .object fun m hm ↦ h.members m (hperm.mem_iff.2 hm))
      fun x hx ↦ hfalls.decode?_of_perm hperm ▸ hx
    rwa [p.lift_id] at hsame
  · have hsame := haccepts id htext (fun h ↦ .object ?_) fun x hx ↦
      (hfalls.decode?_insert (v := j) hname).trans hx
    · rwa [p.lift_id] at hsame
    · have hmembers := h.members
      rw [List.forall_mem_append] at hmembers
      exact List.forall_mem_append.2 ⟨hmembers.1,
        List.forall_mem_cons.2 ⟨exists_parse?_eq_iff.1 hj, hmembers.2⟩⟩

def braced (s : String) : String := "\x7b" ++ s ++ "\x7d"

/-- A request of a width that gives members of its odd material, and none of its even one. -/
def oddText (members : String) : String :=
  braced ("\"settings\": " ++ braced ("\"environment\": " ++
    braced ("\"materials\": [" ++ braced "" ++ ", " ++ braced members ++ "]")) ++ ", \"width\": 64")

/-- A number of one digit. -/
def digit (c : Char) : Json := .number ⟨false, [c], none, none⟩

def red : Json := .array [digit '1', digit '0', digit '0']

def oddPath : Path request material :=
  .oddMaterial (.environment (.settings .here []
    [(some "width", .number ⟨false, ['6', '4'], none, none⟩)]) [] []) [] [] (.object [])

def oddRequest (m : Material) : RenderRequest :=
  { width := 64, settings := { environment := { evenMaterial := {}, oddMaterial := m } } }

/-- Without its color, the odd material is gray, as materials are by default; the odd material of the
default environment is not. -/
theorem accepts_partial_oddMaterial :
    request.codec.read? (oddText "\"color\": [1, 0, 0], \"specular\": 1") =
        some (oddRequest ⟨⟨1, 0, 0⟩, 1, 0.1⟩) ∧
      request.codec.read? (oddText "\"specular\": 1") =
        some (oddRequest ⟨Vec3.splat 0.75, 1, 0.1⟩) ∧
      request.codec.read? (oddText "\"specular\": 1, \"color\": [1, 0, 0]") =
        some (oddRequest ⟨⟨1, 0, 0⟩, 1, 0.1⟩) ∧
      request.codec.read? (oddText "\"color\": [1, 0, 0], \"shade\": null, \"specular\": 1") =
        some (oddRequest ⟨⟨1, 0, 0⟩, 1, 0.1⟩) ∧
      (default : Environment).oddMaterial.color ≠ Vec3.splat 0.75 := by
  have hread : request.codec.read? (oddText "\"color\": [1, 0, 0], \"specular\": 1") =
      some (oddRequest ⟨⟨1, 0, 0⟩, 1, 0.1⟩) := by decide +kernel
  have htext : parse? (oddText "\"color\": [1, 0, 0], \"specular\": 1") =
      some (oddPath.fill (.object [(some "color", red), (some "specular", digit '1')])) := rfl
  obtain ⟨hdelete, hperm, hinsert⟩ := accepts_partial oddPath _ _ hread
  refine ⟨hread, ?_, ?_, ?_, by decide +kernel⟩
  · exact (hdelete [] "color" red _ _ (.head _) htext).read _ rfl
  · exact (hperm _ [(some "specular", digit '1'), (some "color", red)] (.swap ..) htext).read _ rfl
  · exact (hinsert [(some "color", red)] "shade" .null _ (by decide) ⟨"null", rfl⟩ htext).read _ rfl

end SettingsRecord

end FieldGraph
