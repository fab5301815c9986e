import FieldGraph.Json.Printer
import FieldGraph.Json.Token
import FieldGraph.Proofs.Json.Literals

/-!
# Scanning what was printed

Each printed token is scanned as this token, whatever follows it.  Only numbers need a boundary: what
follows a number must not go on with it.
-/

namespace FieldGraph.Json

/-! ## Numbers -/

/-- The text does not go on with a number that stands before it. -/
def Stops (cs : List Char) : Prop :=
  ∀ c ∈ cs.head?, c.isDigit = false ∧ c ≠ '.' ∧ c ≠ 'e' ∧ c ≠ 'E'

theorem stops_nil : Stops [] := fun _ h ↦ nomatch h

theorem stops_cons {c : Char} (h : c.isDigit = false ∧ c ≠ '.' ∧ c ≠ 'e' ∧ c ≠ 'E')
    (rest : List Char) : Stops (c :: rest) := by
  rintro _ ⟨⟩
  exact h

theorem scanDigits?_append {ds rest : List Char} (hds : IsNumeral ds)
    (hrest : ∀ c ∈ rest.head?, c.isDigit = false) :
    scanDigits? (ds ++ rest) = some (ds, rest) := by
  have htake : rest.takeWhile Char.isDigit = [] := by
    cases rest with
    | nil => rfl
    | cons c rest => exact List.takeWhile_cons_of_neg (Bool.eq_false_iff.1 (hrest c rfl))
  have hdrop : rest.dropWhile Char.isDigit = rest := by
    cases rest with
    | nil => rfl
    | cons c rest => exact List.dropWhile_cons_of_neg (Bool.eq_false_iff.1 (hrest c rfl))
  rw [scanDigits?, List.takeWhile_append_of_pos hds.isDigit, List.dropWhile_append_of_pos hds.isDigit,
    htake, hdrop, List.append_nil]
  obtain ⟨c, ds, rfl⟩ := List.exists_cons_of_ne_nil hds.ne_nil
  rfl

theorem scanWhole?_append {ds rest : List Char} (hds : IsNumeral ds)
    (hzero : ds.head? = some '0' → ds = ['0']) (hrest : ∀ c ∈ rest.head?, c.isDigit = false) :
    scanWhole? (ds ++ rest) = some (ds, rest) := by
  by_cases h : ds.head? = some '0'
  · rw [hzero h]
    rfl
  · rw [scanWhole?, scanDigits?_append hds hrest]
    intro rest' heq
    rw [← List.head?_append_of_ne_nil ds hds.ne_nil, heq] at h
    exact h rfl

/-- The text of the part after the point. -/
def fractionChars : Option (List Char) → List Char
  | none => []
  | some ds => '.' :: ds

theorem scanFraction?_append {fraction : Option (List Char)} (h : ∀ ds ∈ fraction, IsNumeral ds)
    {rest : List Char} (hrest : ∀ c ∈ rest.head?, c.isDigit = false ∧ c ≠ '.') :
    scanFraction? (fractionChars fraction ++ rest) = some (fraction, rest) := by
  cases fraction with
  | none =>
    rw [fractionChars, List.nil_append, scanFraction?]
    rintro rest' rfl
    exact (hrest '.' rfl).2 rfl
  | some ds =>
    rw [fractionChars, List.cons_append, scanFraction?,
      scanDigits?_append (h ds rfl) fun c hc ↦ (hrest c hc).1]
    rfl

/-- The text of the exponent. -/
def exponentChars : Option (Bool × List Char) → List Char
  | none => []
  | some (minus, ds) => 'e' :: (if minus then '-' else '+') :: ds

theorem scanExponent?_append {exponent : Option (Bool × List Char)}
    (h : ∀ e ∈ exponent, IsNumeral e.2) {rest : List Char} (hrest : Stops rest) :
    scanExponent? (exponentChars exponent ++ rest) = some (exponent, rest) := by
  cases exponent with
  | none =>
    cases rest with
    | nil => rfl
    | cons c rest =>
      obtain ⟨-, -, he, he'⟩ := hrest c rfl
      exact if_neg (by simp [he, he'])
  | some e =>
    obtain ⟨minus, ds⟩ := e
    have hscan := scanDigits?_append (h _ rfl) fun c hc ↦ (hrest c hc).1
    cases minus <;>
      simpa [exponentChars, scanExponent?, Option.map_eq_some_iff] using hscan

theorem number_chars (n : NumberLiteral) : n.chars = (if n.negative then ['-'] else []) ++
    (n.whole ++ (fractionChars n.fraction ++ exponentChars n.exponent)) := by
  rw [NumberLiteral.chars, List.append_assoc, List.append_assoc]
  rfl

/-- A text that starts with a digit starts with a number. -/
theorem scan?_of_isDigit {c : Char} (h : c.isDigit = true) (rest : List Char) :
    scan? (c :: rest) =
      (scanNumber? false (c :: rest)).map fun (n, rest) => (.number n, rest) := by
  rw [scan?.eq_def]
  split
  case h_12 => rfl
  all_goals
    next heq =>
      obtain ⟨rfl, -⟩ := List.cons.inj heq
      exact absurd h (by decide)

section Number

variable {n : NumberLiteral} (h : n.WellFormed) {rest : List Char} (hrest : Stops rest)
include h hrest

theorem scanNumber?_append : scanNumber? n.negative
      (n.whole ++ (fractionChars n.fraction ++ (exponentChars n.exponent ++ rest))) =
    some (n, rest) := by
  have hexponent : ∀ c ∈ (exponentChars n.exponent ++ rest).head?, c.isDigit = false ∧ c ≠ '.' := by
    cases n.exponent with
    | none => exact fun c hc ↦ ⟨(hrest c hc).1, (hrest c hc).2.1⟩
    | some e =>
      rintro _ ⟨⟩
      decide
  have hfraction : ∀ c ∈ (fractionChars n.fraction ++ (exponentChars n.exponent ++ rest)).head?,
      c.isDigit = false := by
    cases n.fraction with
    | none => exact fun c hc ↦ (hexponent c hc).1
    | some ds =>
      rintro _ ⟨⟩
      rfl
  rw [scanNumber?, scanWhole?_append h.whole h.leading_zero hfraction]
  simp only [Option.bind_eq_bind, Option.bind_some, scanFraction?_append h.fraction hexponent,
    scanExponent?_append h.exponent hrest]
  rfl

theorem scan?_number : scan? (n.chars ++ rest) = some (.number n, rest) := by
  have hscan := scanNumber?_append h hrest
  rw [number_chars]
  cases hneg : n.negative with
  | true =>
    rw [hneg] at hscan
    simp only [if_true, List.append_assoc, List.cons_append, List.nil_append]
    rw [scan?, hscan]
    rfl
  | false =>
    obtain ⟨c, ds, hwhole⟩ := List.exists_cons_of_ne_nil h.whole.ne_nil
    have hdigit : c.isDigit = true := h.whole.isDigit c (hwhole ▸ List.mem_cons_self)
    rw [hneg, hwhole] at hscan
    simp only [Bool.false_eq_true, if_false, List.append_assoc, List.nil_append, hwhole,
      List.cons_append] at hscan ⊢
    rw [scan?_of_isDigit hdigit, hscan]
    rfl

omit hrest in
/-- The text of a number starts with a sign or a digit. -/
theorem exists_chars_eq : ∃ c cs, n.chars = c :: cs ∧ isBlank c = false := by
  obtain ⟨c, ds, hwhole⟩ := List.exists_cons_of_ne_nil h.whole.ne_nil
  have hdigit : c.isDigit = true := h.whole.isDigit c (hwhole ▸ List.mem_cons_self)
  have hblank : isBlank c = false := by
    by_contra hc
    simp only [isBlank, Bool.not_eq_false, Bool.or_eq_true, decide_eq_true_eq] at hc
    rcases hc with ((rfl | rfl) | rfl) | rfl <;> exact absurd hdigit (by decide)
  rw [number_chars, hwhole]
  cases n.negative with
  | true => exact ⟨_, _, rfl, rfl⟩
  | false => exact ⟨_, _, rfl, hblank⟩

end Number

/-! ## Strings -/

theorem hexDigit?_hexChar (n : ℕ) : hexDigit? (hexChar n) = some (n % 16) := by
  have hall : ∀ k < 16, hexDigit? (Nat.digitChar k) = some k := by decide
  exact hall _ (Nat.mod_lt n (by decide))

/-- A unit below the blank is the character of this number, whatever comes next. -/
theorem spell?_control {n : ℕ} (h : n < 32) (acc : List Char) (ps : List Piece) :
    spell? acc (.unit n :: ps) = spell? (Char.ofNat n :: acc) ps := by
  have hhigh : isHighHalf n = false := by
    rw [isHighHalf, decide_eq_false (by omega), Bool.false_and]
  have hlow : isLowHalf n = false := by
    rw [isLowHalf, decide_eq_false (by omega), Bool.false_and]
  rw [spell?.eq_def]
  split <;> simp_all

/-- The text of a character is scanned as one piece that spells it. -/
theorem scanPieces?_escape (c : Char) : ∃ p,
    (∀ acc rest, scanPieces? acc (escape c ++ rest) = scanPieces? (p :: acc) rest) ∧
      ∀ acc ps, spell? acc (p :: ps) = spell? (c :: acc) ps := by
  rw [escape.eq_def]
  split
  case h_8 _ hquote hbackslash _ _ _ _ _ =>
    split
    next hlt =>
      refine ⟨.unit c.toNat, fun acc rest ↦ ?_, fun acc ps ↦ ?_⟩
      · simp only [List.cons_append, List.nil_append]
        rw [scanPieces?]
        simp only [show hexDigit? '0' = some 0 from rfl, hexDigit?_hexChar]
        congr 3
        omega
      · rw [spell?_control hlt, Char.ofNat_toNat]
    next hle =>
      refine ⟨.char c, fun acc rest ↦ ?_, fun acc ps ↦ by rw [spell?]⟩
      rw [List.singleton_append, scanPieces?]
      · exact if_neg (not_or.2 ⟨hle, hbackslash⟩)
      · exact hquote
      · exact fun _ _ _ _ _ h _ ↦ hbackslash h
      · exact fun _ _ h _ ↦ hbackslash h
  all_goals exact ⟨.char _, fun acc rest ↦ rfl, fun acc ps ↦ by rw [spell?]⟩

theorem scanPieces?_escapes (cs : List Char) : ∃ ps,
    (∀ acc rest, scanPieces? acc (cs.flatMap escape ++ '"' :: rest) = some (acc.reverse ++ ps, rest)) ∧
      ∀ acc, spell? acc ps = some (acc.reverse ++ cs) := by
  induction cs with
  | nil => exact ⟨[], fun acc rest ↦ by simp [scanPieces?], fun acc ↦ by simp [spell?]⟩
  | cons c cs ih =>
    obtain ⟨p, hscan, hspell⟩ := scanPieces?_escape c
    obtain ⟨ps, hscans, hspells⟩ := ih
    refine ⟨p :: ps, fun acc rest ↦ ?_, fun acc ↦ ?_⟩
    · rw [List.flatMap_cons, List.append_assoc, hscan, hscans, List.reverse_cons, List.append_assoc]
      rfl
    · rw [hspell, hspells, List.reverse_cons, List.append_assoc]
      rfl

theorem scan?_quoted (s : String) (rest : List Char) :
    scan? (quoted s ++ rest) = some (.string (some s), rest) := by
  obtain ⟨ps, hscan, hspell⟩ := scanPieces?_escapes s.toList
  simp only [quoted, List.cons_append, List.append_assoc, List.nil_append]
  rw [scan?, scanString?, hscan]
  simp [hspell]

end FieldGraph.Json
