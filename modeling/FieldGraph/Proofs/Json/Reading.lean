import FieldGraph.Json.Reader
import FieldGraph.Proofs.Json.Scanning

/-!
# Reading what was printed

The text of a value is read as this value.  The proof follows the printer through the value, and says
of each part that its text brings the reader from the state in which a value is expected to the state
in which the value has been handed to the innermost frame.
-/

namespace FieldGraph.Json

/-- A value with a text of its own: numbers are as texts have them, and strings name characters. -/
inductive Printable : Json → Prop
  | null : Printable null
  | bool (b : Bool) : Printable (bool b)
  | number {n : NumberLiteral} (h : n.WellFormed) : Printable (number n)
  | string (s : String) : Printable (ofString s)
  | array {items : List Json} (h : ∀ v ∈ items, Printable v) : Printable (array items)
  | object {members : List (String × Json)} (h : ∀ m ∈ members, Printable m.2) :
    Printable (ofMembers members)

/-! ## Tokens -/

/-- The tokens of a text, one scan after the other. -/
inductive Tokens : List Char → List Token → Prop
  | nil : Tokens [] []
  | blank {c : Char} {cs : List Char} {ts : List Token} (hc : isBlank c = true) (h : Tokens cs ts) :
    Tokens (c :: cs) ts
  | token {c : Char} {cs rest : List Char} {t : Token} {ts : List Token} (hc : isBlank c = false)
    (hscan : scan? (c :: (cs ++ rest)) = some (t, rest)) (h : Tokens rest ts) :
    Tokens (c :: (cs ++ rest)) (t :: ts)

theorem Tokens.tokensWithin_eq {cs : List Char} {ts : List Token} (h : Tokens cs ts) {fuel : ℕ}
    (hfuel : cs.length < fuel) (acc : List Token) :
    tokensWithin acc fuel cs = some (acc.reverse ++ ts) := by
  induction h generalizing fuel acc with
  | nil =>
    obtain ⟨fuel, rfl⟩ := Nat.exists_eq_succ_of_ne_zero (Nat.ne_zero_of_lt hfuel)
    rw [tokensWithin, List.append_nil]
  | blank hc _ ih =>
    obtain ⟨fuel, rfl⟩ := Nat.exists_eq_succ_of_ne_zero (Nat.ne_zero_of_lt hfuel)
    rw [tokensWithin, if_pos hc, ih (Nat.lt_of_succ_lt_succ hfuel)]
  | @token c cs rest t ts hc hscan _ ih =>
    obtain ⟨fuel, rfl⟩ := Nat.exists_eq_succ_of_ne_zero (Nat.ne_zero_of_lt hfuel)
    have hrest : rest.length < fuel := by
      rw [List.length_cons, List.length_append] at hfuel
      omega
    rw [tokensWithin, if_neg (Bool.eq_false_iff.1 hc), hscan]
    dsimp only
    rw [ih hrest, List.reverse_cons, List.append_assoc]
    rfl

theorem Tokens.tokens?_eq {cs : List Char} {ts : List Token} (h : Tokens cs ts) :
    tokens? cs = some ts :=
  h.tokensWithin_eq (Nat.lt_succ_self _) []

/-! ## States -/

/-- From a state, a text brings the reader to the end of a value. -/
def Completes (s : State) (cs : List Char) (w : Json) : Prop :=
  ∃ ts, Tokens cs ts ∧ ts.foldlM step s = some (.done w)

namespace Completes

variable {s s' : State} {cs rest : List Char} {w : Json}

theorem nil (w : Json) : Completes (.done w) [] w := ⟨[], .nil, rfl⟩

theorem blank {c : Char} (hc : isBlank c = true) (h : Completes s cs w) :
    Completes s (c :: cs) w := by
  obtain ⟨ts, hts, hfold⟩ := h
  exact ⟨ts, .blank hc hts, hfold⟩

theorem token {c : Char} (cs : List Char) {t : Token} (hc : isBlank c = false)
    (hscan : scan? (c :: (cs ++ rest)) = some (t, rest)) (hstep : step s t = some s')
    (h : Completes s' rest w) : Completes s (c :: (cs ++ rest)) w := by
  obtain ⟨ts, hts, hfold⟩ := h
  refine ⟨t :: ts, .token hc hscan hts, ?_⟩
  rw [List.foldlM_cons, hstep]
  exact hfold

/-- A token of one character. -/
theorem mark {c : Char} {t : Token} (hc : isBlank c = false)
    (hscan : scan? (c :: rest) = some (t, rest)) (hstep : step s t = some s')
    (h : Completes s' rest w) : Completes s (c :: rest) w :=
  token [] hc hscan hstep h

theorem newline (depth : ℕ) (h : Completes s rest w) : Completes s (newline depth ++ rest) w := by
  refine blank rfl ?_
  generalize 2 * depth = n
  induction n with
  | zero => exact h
  | succ n ih => exact blank rfl ih

theorem quoted {name : String} (hstep : step s (.string (some name)) = some s')
    (h : Completes s' rest w) : Completes s (quoted name ++ rest) w := by
  have hscan := scan?_quoted name rest
  rw [Json.quoted, List.append_assoc, List.cons_append] at hscan ⊢
  rw [← List.append_assoc] at hscan ⊢
  exact token _ rfl hscan hstep h

theorem parse?_eq {text : String} (h : Completes (.value []) text.toList w) :
    parse? text = some w := by
  obtain ⟨ts, hts, hfold⟩ := h
  rw [parse?, hts.tokens?_eq, Option.bind_some, ofTokens?, hfold]

end Completes

/-! ## Values -/

/-- The state expects a value for the frames, and possibly the end of an array in its place. -/
def Expects (s : State) (frames : List Frame) : Prop :=
  ∀ t, t ≠ .closeArray → step s t = startValue frames t

theorem expects_value (frames : List Frame) : Expects (.value frames) frames := fun _ _ ↦ rfl

theorem expects_valueOrClose (frames : List Frame) :
    Expects (.valueOrClose frames) (.array [] :: frames) := by
  intro t ht
  cases t <;> first | rfl | exact absurd rfl ht

/-- Wherever a value is expected, the text of this one hands it over. -/
def Readable (v : Json) : Prop :=
  ∀ ⦃depth s frames rest w⦄, Expects s frames → Stops rest → Completes (complete v frames) rest w →
    Completes s (chars depth v ++ rest) w

section Parts

variable {frames : List Frame} {rest : List Char} {w : Json}

theorem stops_itemChars (depth depth' : ℕ) (items : List Json) (rest : List Char) :
    Stops (itemChars depth items ++ (newline depth' ++ rest)) := by
  cases items <;> exact stops_cons (by decide) _

theorem stops_memberChars (depth depth' : ℕ) (members : List (JsonText × Json)) (rest : List Char) :
    Stops (memberChars depth members ++ (newline depth' ++ rest)) := by
  cases members <;> exact stops_cons (by decide) _

/-- The rest of an array is read after its first items. -/
theorem completes_itemChars (depth depth' : ℕ) {items : List Json} (hitems : ∀ v ∈ items, Readable v)
    {acc : List Json} (h : Completes (complete (array (acc.reverse ++ items)) frames) rest w) :
    Completes (.next frames (.array acc))
      (itemChars depth items ++ (newline depth' ++ ']' :: rest)) w := by
  induction items generalizing acc with
  | nil =>
    rw [List.append_nil] at h
    exact .newline depth' (.mark rfl rfl rfl h)
  | cons v items ih =>
    rw [itemChars]
    simp only [List.append_assoc, List.cons_append]
    refine .mark rfl rfl rfl (.newline depth ?_)
    refine hitems v List.mem_cons_self (expects_value _) (stops_itemChars _ _ _ _) ?_
    refine ih (fun v hv ↦ hitems v (List.mem_cons_of_mem _ hv)) ?_
    rwa [List.reverse_cons, List.append_assoc]

/-- A name is read, and the value after it. -/
theorem completes_member {depth : ℕ} {s : State} {members : List (JsonText × Json)} {name : String}
    {v : Json} (hs : step s (.string (some name)) = some (.colon frames members (some name)))
    (hv : Readable v) (hstops : Stops rest)
    (h : Completes (.next frames (.object ((some name, v) :: members) (some name))) rest w) :
    Completes s (quoted name ++ (": ".toList ++ (chars depth v ++ rest))) w :=
  .quoted hs (.mark rfl rfl rfl (.blank rfl (hv (expects_value _) hstops h)))

/-- The rest of an object is read after its first members. -/
theorem completes_memberChars (depth depth' : ℕ) {members : List (String × Json)}
    (hmembers : ∀ m ∈ members, Readable m.2) {acc : List (JsonText × Json)} {name : JsonText}
    (h : Completes (complete (object (acc.reverse ++ members.map fun m => (some m.1, m.2))) frames)
      rest w) :
    Completes (.next frames (.object acc name))
      (memberChars depth (members.map fun m => (some m.1, m.2)) ++
        (newline depth' ++ '}' :: rest)) w := by
  induction members generalizing acc name with
  | nil =>
    rw [List.map_nil, List.append_nil] at h
    exact .newline depth' (.mark rfl rfl rfl h)
  | cons m members ih =>
    rw [List.map_cons, memberChars]
    simp only [List.append_assoc, List.cons_append]
    refine .mark rfl rfl rfl (.newline depth ?_)
    refine completes_member rfl (hmembers m List.mem_cons_self) (stops_memberChars _ _ _ _) ?_
    refine ih (fun m hm ↦ hmembers m (List.mem_cons_of_mem _ hm)) ?_
    rwa [List.reverse_cons, List.append_assoc]

end Parts

theorem Printable.readable {v : Json} (hv : Printable v) : Readable v := by
  induction hv with
  | null =>
    intro depth s frames rest w hs _ h
    exact .token "ull".toList rfl rfl (hs _ (by decide)) h
  | bool b =>
    intro depth s frames rest w hs _ h
    cases b with
    | true => exact .token "rue".toList rfl rfl (hs _ (by decide)) h
    | false => exact .token "alse".toList rfl rfl (hs _ (by decide)) h
  | @number n hn =>
    intro depth s frames rest w hs hstops h
    have hscan := scan?_number hn hstops
    obtain ⟨c, cs, hchars, hblank⟩ := exists_chars_eq hn
    rw [chars, hchars, List.cons_append]
    rw [hchars, List.cons_append] at hscan
    exact .token _ hblank hscan (hs _ nofun) h
  | string text =>
    intro depth s frames rest w hs _ h
    exact .quoted (hs _ (by simp)) h
  | @array items _ ih =>
    intro depth s frames rest w hs _ h
    cases items with
    | nil => exact .mark rfl rfl (hs _ (by decide)) (.mark rfl rfl rfl h)
    | cons v items =>
      rw [chars]
      simp only [List.append_assoc, List.cons_append, List.nil_append]
      refine .mark rfl rfl (hs _ (by decide)) (.newline (depth + 1) ?_)
      refine ih v List.mem_cons_self (expects_valueOrClose _) (stops_itemChars _ _ _ _) ?_
      exact completes_itemChars _ _ (fun v hv ↦ ih v (List.mem_cons_of_mem _ hv)) h
  | @object members _ ih =>
    intro depth s frames rest w hs _ h
    cases members with
    | nil => exact .mark rfl rfl (hs _ (by decide)) (.mark rfl rfl rfl h)
    | cons m members =>
      rw [ofMembers, List.map_cons, chars]
      simp only [List.append_assoc, List.cons_append, List.nil_append]
      refine .mark rfl rfl (hs _ (by decide)) (.newline (depth + 1) ?_)
      refine completes_member rfl (ih m List.mem_cons_self) (stops_memberChars _ _ _ _) ?_
      exact completes_memberChars _ _ (fun m hm ↦ ih m (List.mem_cons_of_mem _ hm)) h

/-- The text of a value is read as this value. -/
theorem parse?_pretty {v : Json} (hv : Printable v) : parse? v.pretty = some v := by
  refine Completes.parse?_eq ?_
  rw [pretty, String.toList_ofList, ← List.append_nil (chars 0 v)]
  exact hv.readable (expects_value []) stops_nil (.nil v)

end FieldGraph.Json
