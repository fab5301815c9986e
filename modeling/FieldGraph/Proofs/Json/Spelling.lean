import FieldGraph.Json.Codec
import FieldGraph.Proofs.Json.Reading

/-!
# Trees that have a text

The reader returns the trees whose numbers are as texts have them, and no others.  Each of them has a
text: its tokens, with a blank after each.
-/

namespace FieldGraph.Json

/-- A tree in which all numbers are as texts have them. -/
inductive Spellable : Json → Prop
  | null : Spellable null
  | bool (b : Bool) : Spellable (bool b)
  | number {n : NumberLiteral} (h : n.WellFormed) : Spellable (number n)
  | string (s : JsonText) : Spellable (string s)
  | array {items : List Json} (h : ∀ v ∈ items, Spellable v) : Spellable (array items)
  | object {members : List (JsonText × Json)} (h : ∀ m ∈ members, Spellable m.2) :
    Spellable (object members)

namespace Spellable

theorem items {items : List Json} (h : Spellable (.array items)) : ∀ v ∈ items, Spellable v := by
  cases h with
  | array h => exact h

theorem members {members : List (JsonText × Json)} (h : Spellable (.object members)) :
    ∀ m ∈ members, Spellable m.2 := by
  cases h with
  | object h => exact h

end Spellable

/-! ## Texts of tokens -/

namespace Token

/-- The number of a token is as texts have it. -/
def WellFormed : Token → Prop
  | number n => n.WellFormed
  | _ => True

/-- A text of a token.  A string that names no characters is spelled as half of a surrogate pair. -/
def chars : Token → List Char
  | openArray => ['[']
  | closeArray => [']']
  | openObject => ['{']
  | closeObject => ['}']
  | comma => [',']
  | colon => [':']
  | null => "null".toList
  | bool b => if b then "true".toList else "false".toList
  | number n => n.chars
  | string (some s) => quoted s
  | string none => "\"\\ud800\"".toList

theorem scan?_chars {t : Token} (h : t.WellFormed) (rest : List Char) :
    ∃ c cs, t.chars = c :: cs ∧ isBlank c = false ∧
      scan? (c :: (cs ++ ' ' :: rest)) = some (t, ' ' :: rest) := by
  cases t with
  | openArray | closeArray | openObject | closeObject | comma | colon => exact ⟨_, _, rfl, rfl, rfl⟩
  | null => exact ⟨'n', "ull".toList, rfl, rfl, rfl⟩
  | bool b =>
    cases b with
    | true => exact ⟨'t', "rue".toList, rfl, rfl, rfl⟩
    | false => exact ⟨'f', "alse".toList, rfl, rfl, rfl⟩
  | number n =>
    obtain ⟨c, cs, hchars, hblank⟩ := exists_chars_eq h
    have hscan := scan?_number h (stops_cons (c := ' ') (by decide) rest)
    rw [hchars] at hscan
    exact ⟨c, cs, hchars, hblank, hscan⟩
  | string s =>
    cases s with
    | none => exact ⟨'"', "\\ud800\"".toList, rfl, rfl, rfl⟩
    | some s => exact ⟨'"', _, rfl, rfl, scan?_quoted s _⟩

end Token

/-- The texts of tokens, with a blank after each. -/
def spaced (ts : List Token) : List Char := ts.flatMap fun t ↦ t.chars ++ [' ']

theorem tokens_spaced {ts : List Token} (h : ∀ t ∈ ts, t.WellFormed) : Tokens (spaced ts) ts := by
  induction ts with
  | nil => exact .nil
  | cons t ts ih =>
    obtain ⟨ht, hts⟩ := List.forall_mem_cons.1 h
    obtain ⟨c, cs, hchars, hblank, hscan⟩ := t.scan?_chars ht (spaced ts)
    have hspaced : spaced (t :: ts) = c :: (cs ++ ' ' :: spaced ts) := by
      rw [spaced, List.flatMap_cons, hchars, List.append_assoc]
      rfl
    rw [hspaced]
    exact .token hblank hscan (.blank rfl (ih hts))

/-! ## Tokens of trees -/

mutual

/-- The tokens that spell a tree. -/
def tokens : Json → List Token
  | null => [.null]
  | bool b => [.bool b]
  | number n => [.number n]
  | string s => [.string s]
  | array [] => [.openArray, .closeArray]
  | array (v :: items) => .openArray :: tokens v ++ itemTokens items
  | object [] => [.openObject, .closeObject]
  | object ((name, v) :: members) =>
    .openObject :: .string name :: .colon :: tokens v ++ memberTokens members

/-- The tokens after the first item of an array. -/
def itemTokens : List Json → List Token
  | [] => [.closeArray]
  | v :: items => .comma :: tokens v ++ itemTokens items

/-- The tokens after the first member of an object. -/
def memberTokens : List (JsonText × Json) → List Token
  | [] => [.closeObject]
  | (name, v) :: members => .comma :: .string name :: .colon :: tokens v ++ memberTokens members

end

/-- Wherever a tree is expected, its tokens hand it over. -/
def HandedOver (v : Json) : Prop :=
  ∀ ⦃s frames⦄, Expects s frames → ∀ ts,
    (tokens v ++ ts).foldlM step s = ts.foldlM step (complete v frames)

theorem Expects.foldlM_cons {s s' : State} {frames : List Frame} (h : Expects s frames) {t : Token}
    (ht : t ≠ .closeArray) (hstart : startValue frames t = some s') (ts : List Token) :
    (t :: ts).foldlM step s = ts.foldlM step s' := by
  rw [List.foldlM_cons, h t ht, hstart]
  rfl

section Parts

variable {frames : List Frame} (ts : List Token)

theorem foldlM_itemTokens {items : List Json} (h : ∀ v ∈ items, HandedOver v) (acc : List Json) :
    (itemTokens items ++ ts).foldlM step (.next frames (.array acc)) =
      ts.foldlM step (complete (array (acc.reverse ++ items)) frames) := by
  induction items generalizing acc with
  | nil => rw [List.append_nil]; rfl
  | cons v items ih =>
    obtain ⟨hv, hitems⟩ := List.forall_mem_cons.1 h
    have hcons : acc.reverse ++ v :: items = (v :: acc).reverse ++ items := by simp
    rw [hcons, ← ih hitems, itemTokens]
    simp only [List.cons_append, List.append_assoc]
    exact hv (expects_value _) _

theorem foldlM_memberTokens {members : List (JsonText × Json)} (h : ∀ m ∈ members, HandedOver m.2)
    (acc : List (JsonText × Json)) (name : JsonText) :
    (memberTokens members ++ ts).foldlM step (.next frames (.object acc name)) =
      ts.foldlM step (complete (object (acc.reverse ++ members)) frames) := by
  induction members generalizing acc name with
  | nil => rw [List.append_nil]; rfl
  | cons m members ih =>
    obtain ⟨hm, hmembers⟩ := List.forall_mem_cons.1 h
    have hcons : acc.reverse ++ m :: members = (m :: acc).reverse ++ members := by simp
    rw [hcons, ← ih hmembers _ m.1, memberTokens]
    simp only [List.cons_append, List.append_assoc]
    exact hm (expects_value _) _

end Parts

theorem Spellable.handedOver {v : Json} (h : Spellable v) : HandedOver v := by
  induction h with
  | null | bool | number | string => exact fun s frames hs ts ↦ hs.foldlM_cons (by simp) rfl ts
  | @array items _ ih =>
    intro s frames hs ts
    cases items with
    | nil => exact hs.foldlM_cons (t := .openArray) (by simp) rfl _
    | cons v items =>
      obtain ⟨hv, hitems⟩ := List.forall_mem_cons.1 ih
      rw [tokens]
      simp only [List.cons_append, List.append_assoc]
      rw [hs.foldlM_cons (by simp) rfl, hv (expects_valueOrClose _)]
      exact foldlM_itemTokens ts hitems [v]
  | @object members _ ih =>
    intro s frames hs ts
    cases members with
    | nil => exact hs.foldlM_cons (t := .openObject) (by simp) rfl _
    | cons m members =>
      obtain ⟨hm, hmembers⟩ := List.forall_mem_cons.1 ih
      rw [tokens]
      simp only [List.cons_append, List.append_assoc]
      rw [hs.foldlM_cons (by simp) rfl]
      exact (hm (expects_value _) _).trans (foldlM_memberTokens ts hmembers [m] m.1)

theorem wellFormed_itemTokens {items : List Json}
    (h : ∀ v ∈ items, ∀ t ∈ tokens v, t.WellFormed) : ∀ t ∈ itemTokens items, t.WellFormed := by
  induction items with
  | nil => simp [itemTokens, Token.WellFormed]
  | cons v items ih =>
    obtain ⟨hv, hitems⟩ := List.forall_mem_cons.1 h
    simpa [itemTokens, Token.WellFormed, or_imp, forall_and] using ⟨hv, ih hitems⟩

theorem wellFormed_memberTokens {members : List (JsonText × Json)}
    (h : ∀ m ∈ members, ∀ t ∈ tokens m.2, t.WellFormed) :
    ∀ t ∈ memberTokens members, t.WellFormed := by
  induction members with
  | nil => simp [memberTokens, Token.WellFormed]
  | cons m members ih =>
    obtain ⟨hm, hmembers⟩ := List.forall_mem_cons.1 h
    simpa [memberTokens, Token.WellFormed, or_imp, forall_and] using ⟨hm, ih hmembers⟩

theorem Spellable.wellFormed {v : Json} (h : Spellable v) : ∀ t ∈ tokens v, t.WellFormed := by
  induction h with
  | null | bool | string => simp [tokens, Token.WellFormed]
  | number h => simpa [tokens, Token.WellFormed] using h
  | @array items _ ih =>
    cases items with
    | nil => simp [tokens, Token.WellFormed]
    | cons v items =>
      obtain ⟨hv, hitems⟩ := List.forall_mem_cons.1 ih
      simpa [tokens, Token.WellFormed, or_imp, forall_and] using ⟨hv, wellFormed_itemTokens hitems⟩
  | @object members _ ih =>
    cases members with
    | nil => simp [tokens, Token.WellFormed]
    | cons m members =>
      obtain ⟨hm, hmembers⟩ := List.forall_mem_cons.1 ih
      simpa [tokens, Token.WellFormed, or_imp, forall_and] using
        ⟨hm, wellFormed_memberTokens hmembers⟩

/-- The text of the tokens of a tree is read as the tree. -/
theorem Spellable.parse?_spaced {v : Json} (h : Spellable v) :
    parse? (String.ofList (spaced (tokens v))) = some v := by
  have hfold := h.handedOver (expects_value []) []
  rw [List.append_nil] at hfold
  rw [parse?, String.toList_ofList, (tokens_spaced h.wellFormed).tokens?_eq, Option.bind_some,
    ofTokens?, hfold]
  rfl

/-! ## What is read -/

theorem isNumeral_of_scanDigits? {cs ds rest : List Char} (h : scanDigits? cs = some (ds, rest)) :
    IsNumeral ds ∧ cs = ds ++ rest := by
  rw [scanDigits?] at h
  split at h
  next => cases h
  next hne =>
    cases h
    exact ⟨⟨hne, fun c hc ↦ List.all_eq_true.1 List.all_takeWhile c hc⟩,
      List.takeWhile_append_dropWhile.symm⟩

theorem isNumeral_of_scanWhole? {cs ds rest : List Char} (h : scanWhole? cs = some (ds, rest)) :
    IsNumeral ds ∧ (ds.head? = some '0' → ds = ['0']) := by
  rw [scanWhole?.eq_def] at h
  split at h
  next =>
    cases h
    exact ⟨isNumeral_zero, fun _ ↦ rfl⟩
  next hne =>
    obtain ⟨hds, rfl⟩ := isNumeral_of_scanDigits? h
    refine ⟨hds, fun hzero ↦ ?_⟩
    obtain ⟨ds, rfl⟩ := List.head?_eq_some_iff.1 hzero
    exact absurd rfl (hne (ds ++ rest))

theorem isNumeral_of_scanFraction? {cs rest : List Char} {fraction : Option (List Char)}
    (h : scanFraction? cs = some (fraction, rest)) : ∀ ds ∈ fraction, IsNumeral ds := by
  rw [scanFraction?.eq_def] at h
  split at h
  next =>
    obtain ⟨⟨ds, _⟩, hds, heq⟩ := Option.map_eq_some_iff.1 h
    cases heq
    rintro _ ⟨⟩
    exact (isNumeral_of_scanDigits? hds).1
  next =>
    cases h
    exact fun _ h ↦ nomatch h

theorem isNumeral_of_scanExponent? {cs rest : List Char} {exponent : Option (Bool × List Char)}
    (h : scanExponent? cs = some (exponent, rest)) : ∀ e ∈ exponent, IsNumeral e.2 := by
  rw [scanExponent?.eq_def] at h
  split at h
  next =>
    split at h
    next =>
      obtain ⟨⟨ds, _⟩, hds, heq⟩ := Option.map_eq_some_iff.1 h
      cases heq
      rintro _ ⟨⟩
      exact (isNumeral_of_scanDigits? hds).1
    next =>
      cases h
      exact fun _ h ↦ nomatch h
  next =>
    cases h
    exact fun _ h ↦ nomatch h

theorem wellFormed_of_scanNumber? {negative : Bool} {cs rest : List Char} {n : NumberLiteral}
    (h : scanNumber? negative cs = some (n, rest)) : n.WellFormed := by
  simp only [scanNumber?, Option.bind_eq_bind, Option.bind_eq_some_iff] at h
  obtain ⟨⟨whole, cs₁⟩, hwhole, ⟨fraction, cs₂⟩, hfraction, ⟨exponent, cs₃⟩, hexponent, heq⟩ := h
  cases heq
  obtain ⟨hnumeral, hzero⟩ := isNumeral_of_scanWhole? hwhole
  exact ⟨hnumeral, hzero, isNumeral_of_scanFraction? hfraction,
    isNumeral_of_scanExponent? hexponent⟩

theorem wellFormed_of_scan? {cs rest : List Char} {t : Token} (h : scan? cs = some (t, rest)) :
    t.WellFormed := by
  rw [scan?.eq_def] at h
  split at h
  case h_10 =>
    obtain ⟨⟨s, _⟩, -, heq⟩ := Option.map_eq_some_iff.1 h
    cases heq
    trivial
  case h_11 | h_12 =>
    obtain ⟨⟨n, _⟩, hn, heq⟩ := Option.map_eq_some_iff.1 h
    cases heq
    exact wellFormed_of_scanNumber? hn
  all_goals
    cases h
    trivial

theorem wellFormed_of_tokensWithin {fuel : ℕ} {acc ts : List Token} {cs : List Char}
    (h : tokensWithin acc fuel cs = some ts) (hacc : ∀ t ∈ acc, t.WellFormed) :
    ∀ t ∈ ts, t.WellFormed := by
  induction fuel generalizing acc cs with
  | zero => cases h
  | succ fuel ih =>
    rw [tokensWithin.eq_def] at h
    dsimp only at h
    split at h
    next =>
      cases h
      exact fun t ht ↦ hacc t (List.mem_reverse.1 ht)
    next =>
      split at h
      · exact ih h hacc
      · split at h
        · cases h
        next hscan => exact ih h (List.forall_mem_cons.2 ⟨wellFormed_of_scan? hscan, hacc⟩)

/-! ## What the reader keeps -/

namespace Frame

/-- Everything an open array or object holds is spellable. -/
def Spellable : Frame → Prop
  | array items => ∀ v ∈ items, Json.Spellable v
  | object members _ => ∀ m ∈ members, Json.Spellable m.2

end Frame

namespace State

/-- Everything that has been read so far is spellable. -/
def Spellable : State → Prop
  | value frames | valueOrClose frames | nameOrClose frames => ∀ f ∈ frames, f.Spellable
  | name frames members | colon frames members _ =>
    (∀ f ∈ frames, f.Spellable) ∧ ∀ m ∈ members, Json.Spellable m.2
  | next frames frame => (∀ f ∈ frames, f.Spellable) ∧ frame.Spellable
  | done v => Json.Spellable v

end State

theorem spellable_complete {v : Json} (hv : Spellable v) {frames : List Frame}
    (h : ∀ f ∈ frames, f.Spellable) : (complete v frames).Spellable := by
  cases frames with
  | nil => exact hv
  | cons f frames =>
    obtain ⟨hf, hframes⟩ := List.forall_mem_cons.1 h
    cases f with
    | array items => exact ⟨hframes, List.forall_mem_cons.2 ⟨hv, hf⟩⟩
    | object members name => exact ⟨hframes, List.forall_mem_cons.2 ⟨hv, hf⟩⟩

theorem spellable_startValue {frames : List Frame} (h : ∀ f ∈ frames, f.Spellable) {t : Token}
    (ht : t.WellFormed) {s : State} (hs : startValue frames t = some s) : s.Spellable := by
  cases t with
  | null | bool | string =>
    cases hs
    exact spellable_complete (by constructor) h
  | number n =>
    cases hs
    exact spellable_complete (.number ht) h
  | openArray | openObject =>
    cases hs
    exact h
  | closeArray | closeObject | comma | colon => cases hs

theorem spellable_step {s s' : State} (h : s.Spellable) {t : Token} (ht : t.WellFormed)
    (hs : step s t = some s') : s'.Spellable := by
  rw [step.eq_def] at hs
  split at hs
  case h_1 => exact spellable_startValue h ht hs
  case h_3 =>
    have hempty : (Frame.array []).Spellable := List.forall_mem_nil _
    exact spellable_startValue (List.forall_mem_cons.2 ⟨hempty, h⟩) ht hs
  case h_12 => cases hs
  all_goals cases hs
  case h_2 => exact spellable_complete (.array (List.forall_mem_nil _)) h
  case h_4 => exact spellable_complete (.object (List.forall_mem_nil _)) h
  case h_5 => exact ⟨h, List.forall_mem_nil _⟩
  case h_6 => exact h
  case h_7 => exact List.forall_mem_cons.2 ⟨h.2, h.1⟩
  case h_8 => exact List.forall_mem_cons.2 ⟨h.2, h.1⟩
  case h_9 => exact spellable_complete (.array fun v hv ↦ h.2 v (List.mem_reverse.1 hv)) h.1
  case h_10 => exact h
  case h_11 => exact spellable_complete (.object fun m hm ↦ h.2 m (List.mem_reverse.1 hm)) h.1

theorem spellable_foldlM {ts : List Token} (hts : ∀ t ∈ ts, t.WellFormed) {s s' : State}
    (h : s.Spellable) (hs : ts.foldlM step s = some s') : s'.Spellable := by
  induction ts generalizing s with
  | nil =>
    cases hs
    exact h
  | cons t ts ih =>
    obtain ⟨ht, hts⟩ := List.forall_mem_cons.1 hts
    obtain ⟨s₁, hs₁, hs⟩ := Option.bind_eq_some_iff.1 hs
    exact ih hts (spellable_step h ht hs₁) hs

/-- The trees that the reader returns are those that are spellable. -/
theorem exists_parse?_eq_iff {v : Json} : (∃ text, parse? text = some v) ↔ Spellable v := by
  refine ⟨fun h ↦ ?_, fun h ↦ ⟨_, h.parse?_spaced⟩⟩
  obtain ⟨text, h⟩ := h
  obtain ⟨ts, hts, h⟩ := Option.bind_eq_some_iff.1 h
  rw [ofTokens?] at h
  split at h
  next v' hfold =>
    cases h
    have hempty : (State.value []).Spellable := List.forall_mem_nil _
    exact spellable_foldlM (wellFormed_of_tokensWithin hts (List.forall_mem_nil _)) hempty hfold
  next => cases h

/-- There are texts of a tree, and each of them is accepted as a value. -/
structure Codec.Accepts {α : Type} (c : Codec α) (j : Json) (a : α) : Prop where
  spellable : ∃ text, parse? text = some j
  read : ∀ text, parse? text = some j → c.read? text = some a

theorem Codec.accepts_of_spellable {α : Type} {c : Codec α} {j : Json} {a : α} (h : Spellable j)
    (hdecode : c.decode? j = some a) : c.Accepts j a where
  spellable := exists_parse?_eq_iff.2 h
  read text htext := by rw [read?, htext, Option.bind_some, hdecode]

end FieldGraph.Json
