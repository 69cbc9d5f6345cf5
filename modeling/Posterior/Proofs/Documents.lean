import Mathlib.Data.List.Forall2
import Posterior.Interchange.Reading
import Posterior.Json.Writer

/-!
Documents that are read as they were written. A text reads as a document if the reader takes it off
the front of any text that goes on with a delimiter, whatever space there is before it; so a list
reads as its items do, and whether it was written on one line or indented makes no difference.
-/

namespace Posterior.Json

open Text

/-- Whether a number may go on with the character. -/
def continues (c : Char) : Bool := c.isDigit || c == '.' || c == 'e' || c == 'E'

/-- Text that no number goes on with. -/
def Delimited (rest : List Char) : Prop := ∀ c ∈ rest.head?, continues c = false

theorem Delimited.nil : Delimited [] := nofun

theorem Delimited.cons {c : Char} {rest : List Char} (h : continues c = false) :
    Delimited (c :: rest) := by
  intro d hd
  cases hd
  exact h

theorem Delimited.spaces {gap rest : List Char} (spaces : gap.all isSpace = true)
    (h : Delimited rest) : Delimited (gap ++ rest) := by
  cases gap with
  | nil => exact h
  | cons c gap =>
    refine .cons ?_
    simp only [List.all_cons, Bool.and_eq_true, isSpace, Bool.or_eq_true, decide_eq_true_eq] at spaces
    rcases spaces.1 with ((rfl | rfl) | rfl) | rfl <;> decide

theorem skipSpace_append {gap rest : List Char} {c : Char} (spaces : gap.all isSpace = true)
    (h : isSpace c = false) : skipSpace (gap ++ c :: rest) = c :: rest := by
  unfold skipSpace
  rw [List.dropWhile_append_of_pos (by simpa using spaces), List.dropWhile_cons_of_neg (by simp [h])]

theorem skipSpace_cons {rest : List Char} {c : Char} (h : isSpace c = false) :
    skipSpace (c :: rest) = c :: rest := by
  rw [← List.nil_append (c :: rest), skipSpace_append rfl h, List.nil_append]

section Numbers

variable {cs rest r : List Char} {ds : List Nat} {n : Number}

theorem digit?_of_delimited {c : Char} (h : continues c = false) : digit? c = none := by
  unfold digit?
  rw [if_neg]
  intro digit
  simp [continues, digit] at h

/-- A reader of digits leaves alone what comes after a delimiter. -/
theorem readDigits_append (h : readDigits cs = (ds, r)) (delimited : Delimited rest) :
    readDigits (cs ++ rest) = (ds, r ++ rest) := by
  induction cs generalizing ds with
  | nil =>
    obtain ⟨rfl, rfl⟩ := Prod.mk.inj h
    cases rest with
    | nil => rfl
    | cons c rest =>
      simp only [List.nil_append, readDigits, digit?_of_delimited (delimited c rfl)]
  | cons c cs ih =>
    rw [readDigits] at h
    rw [List.cons_append, readDigits]
    cases hd : digit? c with
    | none =>
      rw [hd] at h
      obtain ⟨rfl, rfl⟩ := Prod.mk.inj h
      rfl
    | some d =>
      rw [hd] at h
      dsimp only at h ⊢
      obtain ⟨rfl, rfl⟩ := Prod.mk.inj h
      rw [ih rfl]

theorem isDigit_of_delimited {c : Char} (h : continues c = false) : c.isDigit = false := by
  simp only [continues, Bool.or_eq_false_iff] at h
  exact h.1.1.1

/-- Digits that do not open with a zero are taken as they are. -/
theorem readWhole_eq {c : Char} (h : c ≠ '0') :
    readWhole (c :: cs) = match readDigits (c :: cs) with
      | ([], _) => none
      | (ds, rest) => some (ds, rest) := by
  unfold readWhole
  split
  · rename_i same
    exact absurd (List.cons.inj same).1 h
  · rfl

theorem readWhole_append (h : readWhole cs = some (ds, r)) (delimited : Delimited rest) :
    readWhole (cs ++ rest) = some (ds, r ++ rest) := by
  rcases cs with _ | ⟨c, cs⟩
  · cases h
  by_cases zero : c = '0'
  · subst zero
    rcases cs with _ | ⟨d, cs⟩
    · obtain ⟨rfl, rfl⟩ := Prod.mk.inj (Option.some.inj h)
      rcases rest with _ | ⟨d, rest⟩
      · rfl
      · change (if d.isDigit = true then none else some ([0], d :: rest)) = _
        rw [isDigit_of_delimited (delimited d rfl)]
        rfl
    · change (if d.isDigit = true then none else some ([0], d :: cs)) = _ at h
      change (if d.isDigit = true then none else some ([0], d :: (cs ++ rest))) = _
      split at h
      · cases h
      · rename_i after
        obtain ⟨rfl, rfl⟩ := Prod.mk.inj (Option.some.inj h)
        rw [if_neg after]
        rfl
  · rw [readWhole_eq zero] at h
    rw [List.cons_append, readWhole_eq zero]
    cases digits : readDigits (c :: cs) with
    | mk ds' r' =>
      rw [digits] at h
      rw [← List.cons_append, readDigits_append digits delimited]
      cases ds' with
      | nil => cases h
      | cons d ds' =>
        obtain ⟨rfl, rfl⟩ := Prod.mk.inj (Option.some.inj h)
        rfl

theorem readFraction_append (h : readFraction cs = some (ds, r)) (delimited : Delimited rest) :
    readFraction (cs ++ rest) = some (ds, r ++ rest) := by
  rcases cs with _ | ⟨c, cs⟩
  · obtain ⟨rfl, rfl⟩ := Prod.mk.inj (Option.some.inj h)
    rcases rest with _ | ⟨c, rest⟩
    · rfl
    · have other : c ≠ '.' := by
        rintro rfl
        cases delimited _ rfl
      unfold readFraction
      split
      · rename_i same
        exact absurd (List.cons.inj same).1 other
      · rfl
  by_cases point : c = '.'
  · subst point
    rw [readFraction] at h
    rw [List.cons_append, readFraction]
    cases digits : readDigits cs with
    | mk ds' r' =>
      rw [digits] at h
      rw [readDigits_append digits delimited]
      cases ds' with
      | nil => cases h
      | cons d ds' =>
        obtain ⟨rfl, rfl⟩ := Prod.mk.inj (Option.some.inj h)
        rfl
  · have plain : ∀ cs, readFraction (c :: cs) = some ([], c :: cs) := by
      intro cs
      unfold readFraction
      split
      · rename_i same
        exact absurd (List.cons.inj same).1 point
      · rfl
    rw [plain] at h
    obtain ⟨rfl, rfl⟩ := Prod.mk.inj (Option.some.inj h)
    exact plain _

theorem readSign_append {down : Bool} {c : Char} (h : readSign (c :: cs) = (down, r)) :
    readSign (c :: cs ++ rest) = (down, r ++ rest) := by
  by_cases plus : c = '+'
  · subst plus
    obtain ⟨rfl, rfl⟩ := Prod.mk.inj h
    rfl
  by_cases minus : c = '-'
  · subst minus
    obtain ⟨rfl, rfl⟩ := Prod.mk.inj h
    rfl
  have plain : ∀ cs, readSign (c :: cs) = (false, c :: cs) := by
    intro cs
    unfold readSign
    split <;> simp_all
  rw [plain] at h
  obtain ⟨rfl, rfl⟩ := Prod.mk.inj h
  exact plain _

theorem readExponent_append {exponent : Option (Bool × List Nat)}
    (h : readExponent cs = some (exponent, r)) (delimited : Delimited rest) :
    readExponent (cs ++ rest) = some (exponent, r ++ rest) := by
  rcases cs with _ | ⟨c, cs⟩
  · obtain ⟨rfl, rfl⟩ := Prod.mk.inj (Option.some.inj h)
    rcases rest with _ | ⟨c, rest⟩
    · rfl
    · have other : ¬ (c = 'e' ∨ c = 'E') := by
        rintro (rfl | rfl) <;> cases delimited _ rfl
      simp [readExponent, other]
  rw [readExponent] at h
  rw [List.cons_append, readExponent]
  split at h
  · rename_i mark
    rw [if_pos mark]
    rcases cs with _ | ⟨d, cs⟩
    · cases h
    cases sign : readSign (d :: cs) with
    | mk down after =>
      rw [sign] at h
      rw [readSign_append sign]
      dsimp only at h ⊢
      cases digits : readDigits after with
      | mk ds r' =>
        rw [digits] at h
        rw [readDigits_append digits delimited]
        cases ds with
        | nil => cases h
        | cons d ds =>
          obtain ⟨rfl, rfl⟩ := Prod.mk.inj (Option.some.inj h)
          rfl
  · rename_i mark
    rw [if_neg mark]
    obtain ⟨rfl, rfl⟩ := Prod.mk.inj (Option.some.inj h)
    rfl

theorem readMagnitude_append {negative : Bool} (h : readMagnitude negative cs = some (n, r))
    (delimited : Delimited rest) : readMagnitude negative (cs ++ rest) = some (n, r ++ rest) := by
  simp only [readMagnitude, Option.bind_eq_bind, Option.bind_eq_some_iff, Option.pure_def,
    Option.some.injEq, Prod.exists, Prod.mk.injEq] at h ⊢
  obtain ⟨whole, after, hw, fraction, after', hf, exponent, after'', he, same, rfl⟩ := h
  exact ⟨whole, _, readWhole_append hw delimited, fraction, _, readFraction_append hf delimited,
    exponent, _, readExponent_append he delimited, same, rfl⟩

/-- A number is read up to what it cannot go on with. -/
theorem readNumber_append (h : readNumber cs = some (n, r)) (delimited : Delimited rest) :
    readNumber (cs ++ rest) = some (n, r ++ rest) := by
  rcases cs with _ | ⟨c, cs⟩
  · cases h
  by_cases minus : c = '-'
  · subst minus
    exact readMagnitude_append h delimited
  · have plain : ∀ cs, readNumber (c :: cs) = readMagnitude false (c :: cs) := by
      intro cs
      unfold readNumber
      split <;> simp_all
    rw [plain] at h
    rw [List.cons_append, plain, ← List.cons_append]
    exact readMagnitude_append h delimited

/-- How a number opens. -/
theorem readNumber_opening {c : Char} (h : readNumber (c :: cs) = some (n, r)) :
    c = '-' ∨ c.isDigit = true := by
  by_cases minus : c = '-'
  · exact .inl minus
  refine .inr (Classical.byContradiction fun digit => ?_)
  have other : c ≠ '0' := by
    rintro rfl
    exact digit (by decide)
  have none : readWhole (c :: cs) = none := by
    rw [readWhole_eq other]
    simp [readDigits, digit?, digit]
  unfold readNumber at h
  split at h
  · rename_i same
    exact minus (List.cons.inj same).1
  · simp [readMagnitude, none] at h

/-- The digits of a count. -/
def digitsOf (n : Nat) : List Nat := (Nat.toDigits 10 n).map fun c => c.toNat - '0'.toNat

theorem readDigits_eq {cs : List Char} (h : ∀ c ∈ cs, c.isDigit = true) :
    readDigits cs = (cs.map fun c => c.toNat - '0'.toNat, []) := by
  induction cs with
  | nil => rfl
  | cons c cs ih =>
    have first : digit? c = some (c.toNat - '0'.toNat) := if_pos (h c List.mem_cons_self)
    rw [readDigits, first, ih fun d hd => h d (List.mem_cons_of_mem _ hd)]
    rfl

theorem digitsValue_digitsOf (n : Nat) : digitsValue 10 (digitsOf n) = n := by
  unfold digitsValue digitsOf
  rw [List.foldl_map]
  have spelled := Nat.ofDigitChars_toDigits (n := n) (by decide : 1 < 10) (by decide)
  unfold Nat.ofDigitChars at spelled
  simpa only [Nat.mul_comm] using spelled

/-- Only zero is written with a zero in front. -/
theorem toDigits_opening {n : Nat} {cs : List Char} (h : Nat.toDigits 10 n = '0' :: cs) : n = 0 := by
  induction n using Nat.strongRecOn generalizing cs with
  | _ n ih =>
    rw [Nat.toDigits_eq_if (by decide)] at h
    split at h
    · exact Nat.digitChar_eq_zero.mp (List.cons.inj h).1
    · rename_i large
      cases front : Nat.toDigits 10 (n / 10) with
      | nil => exact absurd front Nat.toDigits_ne_nil
      | cons c front' =>
        rw [front, List.cons_append] at h
        obtain ⟨rfl, _⟩ := List.cons.inj h
        have := ih (n / 10) (by omega) front
        omega

theorem readWhole_toDigits (n : Nat) : readWhole (Nat.toDigits 10 n) = some (digitsOf n, []) := by
  have digits := readDigits_eq fun c hc => Nat.isDigit_of_mem_toDigits (b := 10) (n := n)
    (by decide) (by decide) hc
  change readDigits (Nat.toDigits 10 n) = (digitsOf n, []) at digits
  by_cases zero : n = 0
  · subst zero
    rfl
  cases written : Nat.toDigits 10 n with
  | nil => exact absurd written Nat.toDigits_ne_nil
  | cons c cs =>
    have other : c ≠ '0' := by
      rintro rfl
      exact zero (toDigits_opening written)
    rw [readWhole_eq other, ← written, digits]
    cases some : digitsOf n with
    | nil =>
      unfold digitsOf at some
      rw [written] at some
      cases some
    | cons d ds => rfl

/-- A whole number as it is written. -/
def Number.ofInt (i : Int) : Number where
  negative := decide (i < 0)
  whole := digitsOf i.natAbs
  fraction := []
  exponent := none

theorem readNumber_int (i : Int) : readNumber (toString i).toList = some (.ofInt i, []) := by
  have magnitude : ∀ (negative : Bool) n, readMagnitude negative (Nat.toDigits 10 n) =
      some ({ negative, whole := digitsOf n, fraction := [], exponent := none }, []) := by
    intro negative n
    simp [readMagnitude, readWhole_toDigits, readFraction, readExponent]
  cases i with
  | ofNat n =>
    change readNumber (n.repr).toList = _
    rw [Nat.toList_repr]
    have plain : readNumber (Nat.toDigits 10 n) = readMagnitude false (Nat.toDigits 10 n) := by
      unfold readNumber
      split
      · rename_i cs written
        have := Nat.isDigit_of_mem_toDigits (b := 10) (n := n) (c := '-') (by decide) (by decide)
          (by rw [written]; exact List.mem_cons_self)
        cases this
      · rfl
    rw [plain]
    exact magnitude false n
  | negSucc n =>
    change readNumber ("-" ++ (n + 1).repr).toList = _
    rw [String.toList_append, Nat.toList_repr]
    change readMagnitude true (Nat.toDigits 10 (n + 1)) = _
    rw [magnitude]
    simp [Number.ofInt, Int.negSucc_lt_zero]

theorem toCount?_ofInt {k : Nat} (h : k ≤ Number.maxWord) : (Number.ofInt k).toCount? = some k := by
  unfold Number.toCount? Number.kind?
  simp only [Number.ofInt, Number.isWhole, Int.natAbs_natCast, digitsValue_digitsOf]
  simp [h]

/-- Whole numbers of 64 bits with a sign are read as they are. -/
theorem toInt?_ofInt (i : Int64) : (Number.ofInt i.toInt).toInt? = some i := by
  have low := i.le_toInt
  have high := i.toInt_lt
  have bit : Number.signBit = 2 ^ 63 := rfl
  have word : Number.maxWord = 2 ^ 64 - 1 := rfl
  unfold Number.toInt? Number.kind?
  simp only [Number.ofInt, Number.isWhole, digitsValue_digitsOf, List.isEmpty_nil,
    Option.isNone_none, Bool.and_true, Bool.true_and, decide_eq_true_eq]
  rw [if_pos (by omega)]
  by_cases negative : i.toInt < 0
  · have large : ¬ (i.toInt.natAbs = 0 ∨ Number.signBit < i.toInt.natAbs) := by omega
    have value : -(i.toInt.natAbs : Int) = i.toInt := by omega
    simp only [negative, decide_true, Bool.not_true, Bool.false_eq_true, ↓reduceIte, Bool.or_eq_true,
      decide_eq_true_eq, large, value, Int64.ofInt_toInt]
  · have small : i.toInt.natAbs < Number.signBit := by omega
    have value : (i.toInt.natAbs : Int) = i.toInt := by omega
    simp only [negative, decide_false, Bool.not_false, ↓reduceIte, small]
    rw [← Int64.ofInt_eq_ofNat, value, Int64.ofInt_toInt]

end Numbers

section Strings

variable {c : Char} {cs rest : List Char} {fuel : Nat}

/-- The pieces that a character is written in are read as one, which spells the character. -/
structure Spelled (c : Char) (piece : Unit16) : Prop where
  join : ∀ pieces, joinUnits (piece :: pieces) = (joinUnits pieces).map (c :: ·)
  read : ∀ fuel cs, readUnits (fuel + 1) (Document.stringChar c ++ cs) =
    (readUnits fuel cs).map fun read => (piece :: read.1, read.2)

theorem hexPair_digits :
    ∀ n < 0x20, (Document.hexPair n).map hexDigit? = [some (n / 16), some (n % 16)] := by
  decide

/-- A control without a letter of its own is spelled by its number. -/
theorem spelled_control (small : c.toNat < 0x20)
    (written : Document.stringChar c = ['\\', 'u', '0', '0'] ++ Document.hexPair c.toNat) :
    Spelled c (.unit c.toNat) where
  join pieces := by
    have low : isLow c.toNat = false := by
      simp only [isLow, Bool.and_eq_false_iff, decide_eq_false_iff_not]
      omega
    have high : isHigh c.toNat = false := by
      simp only [isHigh, Bool.and_eq_false_iff, decide_eq_false_iff_not]
      omega
    rw [joinUnits.eq_def]
    simp only [low, high, Bool.false_eq_true, ↓reduceIte, Char.ofNat_toNat]
  read fuel cs := by
    have digits := hexPair_digits c.toNat small
    obtain ⟨x, _, hex, hx, digits⟩ := List.map_eq_cons_iff.mp digits
    obtain ⟨y, _, rfl, hy, digits⟩ := List.map_eq_cons_iff.mp digits
    obtain rfl := List.map_eq_nil_iff.mp digits
    have number : readHex4 ('0' :: '0' :: x :: y :: cs) = some (c.toNat, cs) := by
      have zero : hexDigit? '0' = some 0 := rfl
      simp only [readHex4, zero, hx, hy, Option.bind_eq_bind, Option.bind_some, Option.pure_def]
      congr 2
      omega
    rw [written, hex]
    change readUnits (fuel + 1) ('\\' :: 'u' :: '0' :: '0' :: x :: y :: cs) = _
    rw [readUnits, if_neg (by decide), if_pos rfl]
    simp only [number, Option.bind_eq_bind, Option.bind_some, Option.pure_def]
    cases readUnits fuel cs <;> rfl

theorem spelled_escape {e : Char} (written : Document.stringChar c = ['\\', e]) (other : e ≠ 'u')
    (stands : escaped? e = some c) : Spelled c (.char c) where
  join pieces := by rw [joinUnits]
  read fuel cs := by
    rw [written]
    change readUnits (fuel + 1) ('\\' :: e :: cs) = _
    rw [readUnits, if_neg (by decide), if_pos rfl]
    · simp only [stands, Option.bind_eq_bind, Option.bind_some, Option.pure_def]
      cases readUnits fuel cs <;> rfl
    · exact other

theorem spelled (c : Char) : ∃ piece, Spelled c piece := by
  by_cases quote : c = '"'
  · subst quote
    exact ⟨_, spelled_escape (e := '"') rfl (by decide) rfl⟩
  by_cases slash : c = '\\'
  · subst slash
    exact ⟨_, spelled_escape (e := '\\') rfl (by decide) rfl⟩
  by_cases back : c = '\x08'
  · subst back
    exact ⟨_, spelled_escape (e := 'b') rfl (by decide) rfl⟩
  by_cases feed : c = '\x0c'
  · subst feed
    exact ⟨_, spelled_escape (e := 'f') rfl (by decide) rfl⟩
  by_cases line : c = '\n'
  · subst line
    exact ⟨_, spelled_escape (e := 'n') rfl (by decide) rfl⟩
  by_cases carriage : c = '\r'
  · subst carriage
    exact ⟨_, spelled_escape (e := 'r') rfl (by decide) rfl⟩
  by_cases tab : c = '\t'
  · subst tab
    exact ⟨_, spelled_escape (e := 't') rfl (by decide) rfl⟩
  by_cases control : c.toNat < 0x20
  · refine ⟨_, spelled_control control ?_⟩
    simp only [Document.stringChar, quote, slash, back, feed, line, carriage, tab, control, ↓reduceIte]
  · refine ⟨.char c, ⟨fun pieces => by rw [joinUnits], fun fuel cs => ?_⟩⟩
    have written : Document.stringChar c = [c] := by
      simp only [Document.stringChar, quote, slash, back, feed, line, carriage, tab, control,
        ↓reduceIte]
    rw [written, List.singleton_append, readUnits.eq_def]
    simp only [quote, slash, control, ↓reduceIte]
    cases readUnits fuel cs <;> rfl

/-- A text is read up to its closing quote, and as it was. -/
theorem readUnits_text (cs rest : List Char) : ∃ pieces, joinUnits pieces = some cs ∧
    ∀ fuel, cs.length < fuel →
      readUnits fuel (cs.flatMap Document.stringChar ++ '"' :: rest) = some (pieces, rest) := by
  induction cs with
  | nil =>
    refine ⟨[], rfl, fun fuel enough => ?_⟩
    obtain ⟨fuel, rfl⟩ := Nat.exists_eq_succ_of_ne_zero (Nat.ne_zero_of_lt enough)
    rfl
  | cons c cs ih =>
    obtain ⟨pieces, join, read⟩ := ih
    obtain ⟨piece, first⟩ := spelled c
    refine ⟨piece :: pieces, by rw [first.join, join]; rfl, fun fuel enough => ?_⟩
    rw [List.length_cons] at enough
    obtain ⟨fuel, rfl⟩ := Nat.exists_eq_succ_of_ne_zero (Nat.ne_zero_of_lt enough)
    rw [List.flatMap_cons, List.append_assoc, first.read, read fuel (by omega)]
    rfl

theorem length_le_flatMap (cs : List Char) : cs.length ≤ (cs.flatMap Document.stringChar).length := by
  induction cs with
  | nil => exact Nat.le_refl _
  | cons c cs ih =>
    have one : 1 ≤ (Document.stringChar c).length := by
      unfold Document.stringChar
      repeat' split
      all_goals simp
    rw [List.flatMap_cons, List.length_append, List.length_cons]
    omega

theorem readString_text (s : String) (rest : List Char) :
    readString (s.toList.flatMap Document.stringChar ++ '"' :: rest) = some (some s, rest) := by
  obtain ⟨pieces, join, read⟩ := readUnits_text s.toList rest
  have enough := length_le_flatMap s.toList
  unfold readString
  rw [read _ (by rw [List.length_append]; omega)]
  simp [join]

end Strings

/-- The text reads as the document, whatever space is before it and whatever delimiter after it. Two
steps of the reader to a character are enough. It opens neither with a space nor as the end of a
list. -/
structure Reads (cs : List Char) (json : Json) : Prop where
  opening : ∀ c ∈ cs.head?, isSpace c = false ∧ c ≠ ']'
  read : ∀ fuel gap rest, 2 * cs.length ≤ fuel → gap.all isSpace = true → Delimited rest →
    readDocument fuel (gap ++ cs ++ rest) = some (json, rest)

section Documents

variable {c : Char} {cs gap tail : List Char} {json : Json}

/-- What the reader does with the first character that is not a space. -/
theorem Reads.of_first (opening : isSpace c = false ∧ c ≠ ']')
    (h : ∀ fuel rest, 2 * cs.length < fuel → Delimited rest →
      readDocument fuel (c :: cs ++ rest) = some (json, rest)) : Reads (c :: cs) json := by
  refine ⟨fun d hd => Option.some.inj hd ▸ opening, fun fuel gap rest enough spaces delimited => ?_⟩
  obtain ⟨opening, _⟩ := opening
  rw [List.length_cons] at enough
  have first := h fuel rest (by omega) delimited
  obtain ⟨fuel, rfl⟩ := Nat.exists_eq_add_of_lt (show 0 < fuel by omega)
  rw [Nat.zero_add] at first ⊢
  have at_once : readDocument (fuel + 1) (gap ++ (c :: cs) ++ rest) =
      readDocument (fuel + 1) (c :: cs ++ rest) := by
    have skipped : skipSpace (gap ++ (c :: cs) ++ rest) = skipSpace (c :: cs ++ rest) := by
      rw [List.append_assoc, List.cons_append, skipSpace_append spaces opening, skipSpace_cons opening]
    rw [readDocument, readDocument, skipped]
  rw [at_once, first]

/-- There is at least one character to read. -/
theorem Reads.nonempty (h : Reads cs json) :
    ∃ c cs', cs = c :: cs' ∧ isSpace c = false ∧ c ≠ ']' := by
  cases cs with
  | nil => cases h.read 0 [] [] (Nat.le_refl _) rfl .nil
  | cons c cs => exact ⟨c, cs, rfl, h.opening c rfl⟩

theorem reads_null : Reads "null".toList .null := by
  change Reads ('n' :: "ull".toList) .null
  refine .of_first (by decide) fun fuel rest enough _ => ?_
  obtain ⟨fuel, rfl⟩ := Nat.exists_eq_succ_of_ne_zero (Nat.ne_zero_of_lt enough)
  rfl

theorem reads_bool (b : Bool) : Reads (Document.wordText b).toList (.bool b) := by
  cases b with
  | false =>
    change Reads ('f' :: "alse".toList) (.bool false)
    refine .of_first (by decide) fun fuel rest enough _ => ?_
    obtain ⟨fuel, rfl⟩ := Nat.exists_eq_succ_of_ne_zero (Nat.ne_zero_of_lt enough)
    rfl
  | true =>
    change Reads ('t' :: "rue".toList) (.bool true)
    refine .of_first (by decide) fun fuel rest enough _ => ?_
    obtain ⟨fuel, rfl⟩ := Nat.exists_eq_succ_of_ne_zero (Nat.ne_zero_of_lt enough)
    rfl

theorem ne_of_opening {d : Char} (opening : c = '-' ∨ c.isDigit = true) (minus : d ≠ '-')
    (digit : d.isDigit = false) : c ≠ d := by
  rintro rfl
  rcases opening with rfl | h
  · exact minus rfl
  · rw [digit] at h
    cases h

theorem isSpace_of_opening (opening : c = '-' ∨ c.isDigit = true) : isSpace c = false := by
  have blank : c ≠ ' ' := ne_of_opening opening (by decide) (by decide)
  have line : c ≠ '\n' := ne_of_opening opening (by decide) (by decide)
  have tab : c ≠ '\t' := ne_of_opening opening (by decide) (by decide)
  have carriage : c ≠ '\r' := ne_of_opening opening (by decide) (by decide)
  simp [isSpace, blank, line, tab, carriage]

/-- A text that opens as a number does is taken for one. -/
theorem readDocument_number {fuel : Nat} (opening : c = '-' ∨ c.isDigit = true) :
    readDocument (fuel + 1) (c :: cs) =
      (readNumber (c :: cs)).map fun read => (.number read.1, read.2) := by
  rw [readDocument, skipSpace_cons (isSpace_of_opening opening)]
  split
  all_goals
    rename_i same
    first
    | exact absurd (List.cons.inj same).1 (ne_of_opening opening (by decide) (by decide))
    | rfl

theorem reads_number {n : Number} (h : readNumber cs = some (n, [])) : Reads cs (.number n) := by
  rcases cs with _ | ⟨c, cs⟩
  · cases h
  have opening := readNumber_opening h
  have bracket : c ≠ ']' := ne_of_opening opening (by decide) (by decide)
  refine .of_first ⟨isSpace_of_opening opening, bracket⟩ fun fuel rest enough delimited => ?_
  obtain ⟨fuel, rfl⟩ := Nat.exists_eq_succ_of_ne_zero (Nat.ne_zero_of_lt enough)
  rw [List.cons_append, readDocument_number opening, ← List.cons_append, readNumber_append h delimited]
  rfl

theorem stringText_toList (s : String) : (Document.stringText s).toList =
    '"' :: (s.toList.flatMap Document.stringChar ++ ['"']) := by
  simp [Document.stringText]

theorem reads_string (s : String) : Reads (Document.stringText s).toList (.str (some s)) := by
  rw [stringText_toList]
  refine .of_first (by decide) fun fuel rest enough _ => ?_
  obtain ⟨fuel, rfl⟩ := Nat.exists_eq_succ_of_ne_zero (Nat.ne_zero_of_lt enough)
  rw [List.cons_append, List.append_assoc, List.singleton_append]
  change (readString _).map _ = _
  rw [readString_text]
  rfl

/-- The items of a list after any space, each but the first after a comma and the same gap. -/
theorem readItems_intercalate {css : List (List Char)} {jsons : List Json}
    (items : List.Forall₂ Reads css jsons) (some : css ≠ []) (spaces : gap.all isSpace = true)
    (after : tail.all isSpace = true) (fuel : Nat) (front rest : List Char)
    (before : front.all isSpace = true) (enough : 2 * ((',' :: gap).intercalate css).length < fuel) :
    readItems fuel (front ++ (',' :: gap).intercalate css ++ (tail ++ ']' :: rest)) =
      Option.some (jsons, rest) := by
  induction items generalizing fuel front with
  | nil => exact absurd rfl some
  | @cons cs json css jsons first items ih =>
    obtain ⟨fuel, rfl⟩ := Nat.exists_eq_succ_of_ne_zero (Nat.ne_zero_of_lt enough)
    rw [readItems]
    cases items with
    | nil =>
      rw [List.intercalate_singleton] at enough ⊢
      rw [first.read fuel front _ (by omega) before (.spaces after (.cons (by decide)))]
      simp only [Option.bind_eq_bind, Option.bind_some,
        skipSpace_append after (show isSpace ']' = false by decide), Option.pure_def]
    | @cons cs' json' css jsons second items =>
      rw [List.intercalate_cons_cons] at enough ⊢
      simp only [List.length_append, List.length_cons] at enough
      have read := first.read fuel front (',' :: (gap ++ (',' :: gap).intercalate (cs' :: css) ++
        (tail ++ ']' :: rest))) (by omega) before (.cons (by decide))
      simp only [List.append_assoc, List.cons_append] at read ⊢
      rw [read]
      have rest' := ih (by simp) fuel gap spaces (by omega)
      simp only [List.append_assoc] at rest'
      simp only [Option.bind_eq_bind, Option.bind_some,
        skipSpace_cons (show isSpace ',' = false by decide), rest', Option.pure_def]

theorem readDocument_list (fuel : Nat) (cs : List Char) : readDocument (fuel + 1) ('[' :: cs) =
    match skipSpace cs with
    | ']' :: cs => some (.list [], cs)
    | cs => (readItems fuel cs).map fun (items, rest) => (.list items, rest) := by
  rw [readDocument, skipSpace_cons (by decide)]
  rfl

theorem readDocument_record (fuel : Nat) (cs : List Char) : readDocument (fuel + 1) ('\x7b' :: cs) =
    match skipSpace cs with
    | '\x7d' :: cs => some (.record [], cs)
    | cs => (readFields fuel cs).map fun (fields, rest) => (.record fields, rest) := by
  rw [readDocument, skipSpace_cons (by decide)]
  rfl

theorem reads_nil : Reads "[]".toList (.list []) := by
  change Reads ['[', ']'] (.list [])
  refine .of_first (by decide) fun fuel rest enough _ => ?_
  obtain ⟨fuel, rfl⟩ := Nat.exists_eq_succ_of_ne_zero (Nat.ne_zero_of_lt enough)
  rfl

/-- What is joined opens as its first part. -/
theorem intercalate_opening {css : List (List Char)} (sep : List Char) {P : Char → Prop}
    (some : css ≠ []) (h : ∀ cs ∈ css, ∃ c cs', cs = c :: cs' ∧ P c) :
    ∃ c cs', sep.intercalate css = c :: cs' ∧ P c := by
  rcases css with _ | ⟨cs, _ | ⟨cs', css⟩⟩
  · exact absurd rfl some
  · rw [List.intercalate_singleton]
    exact h cs List.mem_cons_self
  · obtain ⟨c, cs'', rfl, hc⟩ := h cs List.mem_cons_self
    rw [List.intercalate_cons_cons]
    exact ⟨c, _, rfl, hc⟩

theorem exists_of_forall₂ {α β : Type} {R : α → β → Prop} {as : List α} {bs : List β}
    (h : List.Forall₂ R as bs) : ∀ a ∈ as, ∃ b, R a b := by
  induction h with
  | nil => exact nofun
  | cons first _ ih => exact List.forall_mem_cons.mpr ⟨⟨_, first⟩, ih⟩

theorem reads_list {css : List (List Char)} {jsons : List Json}
    (items : List.Forall₂ Reads css jsons) (some : css ≠ []) (spaces : gap.all isSpace = true)
    (after : tail.all isSpace = true) :
    Reads ('[' :: (gap ++ (',' :: gap).intercalate css ++ (tail ++ [']']))) (.list jsons) := by
  refine .of_first (by decide) fun fuel rest enough _ => ?_
  obtain ⟨fuel, rfl⟩ := Nat.exists_eq_succ_of_ne_zero (Nat.ne_zero_of_lt enough)
  simp only [List.length_append, List.length_singleton] at enough
  have read := readItems_intercalate items some spaces after fuel [] rest rfl (by omega)
  obtain ⟨c, cs, opens, space, bracket⟩ := intercalate_opening (',' :: gap) some
    (P := fun c => isSpace c = false ∧ c ≠ ']')
    fun cs hcs => (exists_of_forall₂ items cs hcs).elim fun _ h => h.nonempty
  rw [opens] at read ⊢
  simp only [List.append_assoc, List.cons_append, List.nil_append] at read ⊢
  rw [readDocument_list, skipSpace_append spaces space]
  split
  · rename_i same
    exact absurd (List.cons.inj same).1 bracket
  · rw [read]
    rfl

/-- The text of a field: its name, a colon and its value, after any space. -/
def ReadsField (cs : List Char) (field : Option String × Json) : Prop :=
  ∃ key mid value, cs = (Document.stringText key).toList ++ ':' :: (mid ++ value) ∧
    mid.all isSpace = true ∧ field.1 = some key ∧ Reads value field.2

/-- The fields of a record after any space, each but the first after a comma and the same gap. -/
theorem readFields_intercalate {css : List (List Char)} {fields : List (Option String × Json)}
    (items : List.Forall₂ ReadsField css fields) (some : css ≠ []) (spaces : gap.all isSpace = true)
    (after : tail.all isSpace = true) (fuel : Nat) (front rest : List Char)
    (before : front.all isSpace = true) (enough : 2 * ((',' :: gap).intercalate css).length < fuel) :
    readFields fuel (front ++ (',' :: gap).intercalate css ++ (tail ++ '\x7d' :: rest)) =
      Option.some (fields, rest) := by
  induction items generalizing fuel front with
  | nil => exact absurd rfl some
  | @cons cs field css fields first items ih =>
    obtain ⟨key, mid, value, rfl, between, named, first⟩ := first
    obtain ⟨name, json⟩ := field
    dsimp only at named first
    subst named
    obtain ⟨fuel, rfl⟩ := Nat.exists_eq_succ_of_ne_zero (Nat.ne_zero_of_lt enough)
    rw [readFields]
    cases items with
    | nil =>
      rw [List.intercalate_singleton] at enough ⊢
      simp only [List.length_append, List.length_cons] at enough
      have read := first.read fuel mid (tail ++ '\x7d' :: rest) (by omega) between
        (.spaces after (.cons (by decide)))
      simp only [stringText_toList, List.append_assoc, List.cons_append, List.nil_append] at read ⊢
      simp only [skipSpace_append before (show isSpace '"' = false by decide), readString_text,
        Option.bind_eq_bind, Option.bind_some, skipSpace_cons (show isSpace ':' = false by decide),
        read, skipSpace_append after (show isSpace '\x7d' = false by decide), Option.pure_def]
    | @cons cs' field' css fields second items =>
      rw [List.intercalate_cons_cons] at enough ⊢
      simp only [List.length_append, List.length_cons] at enough
      have read := first.read fuel mid (',' :: (gap ++ (',' :: gap).intercalate (cs' :: css) ++
        (tail ++ '\x7d' :: rest))) (by omega) between (.cons (by decide))
      have rest' := ih (by simp) fuel gap spaces (by omega)
      simp only [stringText_toList, List.append_assoc, List.cons_append,
        List.nil_append] at read rest' ⊢
      simp only [skipSpace_append before (show isSpace '"' = false by decide), readString_text,
        Option.bind_eq_bind, Option.bind_some, skipSpace_cons (show isSpace ':' = false by decide),
        read, skipSpace_cons (show isSpace ',' = false by decide), rest', Option.pure_def]

theorem reads_empty : Reads "\x7b\x7d".toList (.record []) := by
  change Reads ['\x7b', '\x7d'] (.record [])
  refine .of_first (by decide) fun fuel rest enough _ => ?_
  obtain ⟨fuel, rfl⟩ := Nat.exists_eq_succ_of_ne_zero (Nat.ne_zero_of_lt enough)
  rfl

theorem reads_record {css : List (List Char)} {fields : List (Option String × Json)}
    (items : List.Forall₂ ReadsField css fields) (some : css ≠ []) (spaces : gap.all isSpace = true)
    (after : tail.all isSpace = true) :
    Reads ('\x7b' :: (gap ++ (',' :: gap).intercalate css ++ (tail ++ ['\x7d']))) (.record fields) := by
  refine .of_first (by decide) fun fuel rest enough _ => ?_
  obtain ⟨fuel, rfl⟩ := Nat.exists_eq_succ_of_ne_zero (Nat.ne_zero_of_lt enough)
  simp only [List.length_append, List.length_singleton] at enough
  have read := readFields_intercalate items some spaces after fuel [] rest rfl (by omega)
  obtain ⟨c, cs, opens, rfl⟩ := intercalate_opening (',' :: gap) some (P := (· = '"'))
    fun cs hcs => (exists_of_forall₂ items cs hcs).elim fun _ ⟨key, mid, value, written, _⟩ => by
      rw [written, stringText_toList]
      exact ⟨_, _, rfl, rfl⟩
  rw [opens] at read ⊢
  simp only [List.append_assoc, List.cons_append, List.nil_append] at read ⊢
  rw [readDocument_record, skipSpace_append spaces (by decide)]
  split
  · rename_i same
    cases (List.cons.inj same).1
  · rw [read]
    rfl

end Documents

/-- The text of the double is a number that stands for the double. -/
def Legible (x : Float) : Prop :=
  ∃ n, readNumber (Decimal.interchangeText x).toList = some (n, []) ∧ n.toReal? = some x

theorem legible_iff {x : Float} : Legible x ↔
    ((readNumber (Decimal.interchangeText x).toList).bind fun read =>
      if read.2 = [] then read.1.toReal? else none) = some x := by
  simp only [Legible, Option.bind_eq_some_iff, Option.ite_none_right_eq_some, Prod.exists]
  exact exists_congr fun n => ⟨fun ⟨read, value⟩ => ⟨[], read, rfl, value⟩,
    fun ⟨_, read, rest, value⟩ => ⟨rest ▸ read, value⟩⟩

instance (x : Float) : Decidable (Legible x) := decidable_of_iff _ legible_iff.symm

/-- What the text of a double is read as. -/
def realJson (x : Float) : Json :=
  match readNumber (Decimal.interchangeText x).toList with
  | some (n, []) => .number n
  | _ => .null

theorem realJson_of_infinite {x : Float} (h : x.isFinite = false) : realJson x = .null := by
  have text : Decimal.interchangeText x = "null" := by
    unfold Decimal.interchangeText
    rw [h]
    rfl
  unfold realJson
  rw [text]
  rfl

theorem realJson_of_legible {x : Float} (h : Legible x) :
    ∃ n, readNumber (Decimal.interchangeText x).toList = some (n, []) ∧ realJson x = .number n ∧
      n.toReal? = some x := by
  obtain ⟨n, read, value⟩ := h
  refine ⟨n, read, ?_, value⟩
  unfold realJson
  rw [read]

theorem toReal?_realJson {x : Float} (h : x.isFinite = true → Legible x) (depth : Nat) :
    toReal? depth (realJson x) = if x.isFinite then some x else none := by
  cases finite : x.isFinite with
  | true =>
    obtain ⟨n, -, json, value⟩ := realJson_of_legible (h finite)
    rw [json]
    exact value
  | false =>
    rw [realJson_of_infinite finite]
    rfl

/-- Where null is allowed, it is read for a number without a text. -/
theorem toOption?_realJson {x : Float} (h : x.isFinite = true → Legible x) (depth : Nat) :
    toOption? toReal? depth (realJson x) = some (if x.isFinite then some x else none) := by
  cases finite : x.isFinite with
  | true =>
    obtain ⟨n, -, json, value⟩ := realJson_of_legible (h finite)
    rw [json, toOption?, toReal?, value]
    · rfl
    · nofun
  | false =>
    rw [realJson_of_infinite finite]
    rfl

theorem reads_real {x : Float} (h : x.isFinite = true → Legible x) :
    Reads (Decimal.interchangeText x).toList (realJson x) := by
  cases finite : x.isFinite with
  | true =>
    obtain ⟨n, read, json, _⟩ := realJson_of_legible (h finite)
    rw [json]
    exact reads_number read
  | false =>
    have text : Decimal.interchangeText x = "null" := by
      unfold Decimal.interchangeText
      rw [finite]
      rfl
    rw [realJson_of_infinite finite, text]
    exact reads_null

namespace Document

mutual

/-- What a document is read back as. -/
def json : Document → Json
  | .null => .null
  | .bool b => .bool b
  | .int i => .number (.ofInt i)
  | .real x => realJson x
  | .str s => .str (some s)
  | .list items => .list (itemJsons items)
  | .record fields => .record (fieldJsons fields)

def itemJsons : List Document → List Json
  | [] => []
  | d :: ds => json d :: itemJsons ds

def fieldJsons : List (String × Document) → List (Option String × Json)
  | [] => []
  | (key, d) :: fields => (some key, json d) :: fieldJsons fields

end

mutual

/-- The doubles in a document. -/
def reals : Document → List Float
  | .real x => [x]
  | .list items => itemReals items
  | .record fields => fieldReals fields
  | _ => []

def itemReals : List Document → List Float
  | [] => []
  | d :: ds => reals d ++ itemReals ds

def fieldReals : List (String × Document) → List Float
  | [] => []
  | (_, d) :: fields => reals d ++ fieldReals fields

end

theorem newLine_toList (depth : Nat) :
    (newLine depth).toList = '\n' :: List.replicate (2 * depth) ' ' := by
  simp [newLine]

theorem newLine_spaces (depth : Nat) : (newLine depth).toList.all isSpace = true := by
  rw [newLine_toList, List.all_cons, List.all_replicate]
  simp [isSpace]

/-- A block of lines has its brackets around the lines, which commas separate. -/
theorem block_toList (opening closing : String) (depth : Nat) {lines : List String}
    (some : lines ≠ []) :
    (block opening closing depth lines).toList = opening.toList ++ ((newLine (depth + 1)).toList ++
      (',' :: (newLine (depth + 1)).toList).intercalate (lines.map String.toList) ++
      ((newLine depth).toList ++ closing.toList)) := by
  unfold block
  rw [if_neg (by simpa using some)]
  simp only [String.toList_append, String.toList_intercalate, List.append_assoc]
  rfl

mutual

/-- A document on one line reads back, if its finite doubles do. -/
theorem reads_text : ∀ d : Document, (∀ x ∈ d.reals, x.isFinite = true → Legible x) →
    Reads d.text.toList d.json
  | .null, _ => reads_null
  | .bool b, _ => reads_bool b
  | .int i, _ => reads_number (readNumber_int i)
  | .real x, h => reads_real (h x List.mem_cons_self)
  | .str s, _ => reads_string s
  | .list [], _ => reads_nil
  | .list (d :: ds), h => by
    have written : (Document.list (d :: ds)).text.toList = '[' :: ([] ++
        [','].intercalate ((itemTexts (d :: ds)).map String.toList) ++ ([] ++ [']'])) := by
      simp [text]
    rw [written]
    exact reads_list (reads_itemTexts (d :: ds) h) (by simp [itemTexts]) rfl rfl
  | .record [], _ => reads_empty
  | .record (field :: fields), h => by
    have written : (Document.record (field :: fields)).text.toList = '\x7b' :: ([] ++
        [','].intercalate ((fieldTexts (field :: fields)).map String.toList) ++ ([] ++ ['\x7d'])) := by
      simp [text]
    rw [written]
    exact reads_record (reads_fieldTexts (field :: fields) h) (by simp [fieldTexts]) rfl rfl

theorem reads_itemTexts : ∀ ds : List Document, (∀ x ∈ itemReals ds, x.isFinite = true → Legible x) →
    List.Forall₂ Reads ((itemTexts ds).map String.toList) (itemJsons ds)
  | [], _ => .nil
  | d :: ds, h => .cons (reads_text d fun x hx => h x (List.mem_append_left _ hx))
    (reads_itemTexts ds fun x hx => h x (List.mem_append_right _ hx))

theorem reads_fieldTexts : ∀ fields : List (String × Document),
    (∀ x ∈ fieldReals fields, x.isFinite = true → Legible x) →
    List.Forall₂ ReadsField ((fieldTexts fields).map String.toList) (fieldJsons fields)
  | [], _ => .nil
  | (key, d) :: fields, h => .cons
    ⟨key, [], d.text.toList, by simp, rfl, rfl,
      reads_text d fun x hx => h x (List.mem_append_left _ hx)⟩
    (reads_fieldTexts fields fun x hx => h x (List.mem_append_right _ hx))

end

mutual

/-- So does an indented one. -/
theorem reads_indented : ∀ (depth : Nat) (d : Document),
    (∀ x ∈ d.reals, x.isFinite = true → Legible x) →
    Reads (d.indented depth).toList d.json
  | _, .null, _ => reads_null
  | _, .bool b, _ => reads_bool b
  | _, .int i, _ => reads_number (readNumber_int i)
  | _, .real x, h => reads_real (h x List.mem_cons_self)
  | _, .str s, _ => reads_string s
  | _, .list [], _ => reads_nil
  | depth, .list (d :: ds), h => by
    rw [indented, block_toList _ _ _ (by simp [indentedItems])]
    exact reads_list (reads_indentedItems (depth + 1) (d :: ds) h) (by simp [indentedItems])
      (newLine_spaces _) (newLine_spaces _)
  | _, .record [], _ => reads_empty
  | depth, .record (field :: fields), h => by
    rw [indented, block_toList _ _ _ (by simp [indentedFields])]
    exact reads_record (reads_indentedFields (depth + 1) (field :: fields) h) (by simp [indentedFields])
      (newLine_spaces _) (newLine_spaces _)

theorem reads_indentedItems : ∀ (depth : Nat) (ds : List Document),
    (∀ x ∈ itemReals ds, x.isFinite = true → Legible x) →
    List.Forall₂ Reads ((indentedItems depth ds).map String.toList) (itemJsons ds)
  | _, [], _ => .nil
  | depth, d :: ds, h => .cons (reads_indented depth d fun x hx => h x (List.mem_append_left _ hx))
    (reads_indentedItems depth ds fun x hx => h x (List.mem_append_right _ hx))

theorem reads_indentedFields : ∀ (depth : Nat) (fields : List (String × Document)),
    (∀ x ∈ fieldReals fields, x.isFinite = true → Legible x) →
    List.Forall₂ ReadsField ((indentedFields depth fields).map String.toList) (fieldJsons fields)
  | _, [], _ => .nil
  | depth, (key, d) :: fields, h => .cons
    ⟨key, [' '], (d.indented depth).toList, by simp, rfl, rfl,
      reads_indented depth d fun x hx => h x (List.mem_append_left _ hx)⟩
    (reads_indentedFields depth fields fun x hx => h x (List.mem_append_right _ hx))

end

/-- What reads as a document is the text of one. -/
theorem ofText?_of_reads {text : String} {json : Json} (h : Reads text.toList json) :
    ofText? text = some json := by
  have read := h.read (2 * text.toList.length + 2) [] [] (by omega) rfl .nil
  simp only [List.nil_append, List.append_nil] at read
  unfold ofText?
  dsimp only
  rw [read]
  rfl

end Document

end Posterior.Json
