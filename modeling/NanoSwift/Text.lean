import NanoSwift.Lib.Radix

/-!
# Strings

A Swift string is a sequence of *characters*, each an extended grapheme cluster
of one or more Unicode scalars; counting, taking and dropping go by characters,
while regular expressions go by scalars (`scalars`).

Swift compares strings up to canonical equivalence. Every literal the library
compares with is made of ASCII characters none of which is canonically
equivalent to anything else, so identity is the same there. Concatenation is
taken to keep the characters of both strings, as it does for those the library
itself puts together, which are ASCII and hold no carriage return.

* `parseDigits`, `parseByte` and `parseInt` are the failable initialisers of the
  integer types: signs, digits of either case, no overflow.
* `digit` is a digit as it is printed, `%X` and radices up to ten alike;
  printed digits parse (`parseDigits_map_digit`).
* `upperCase` is the upper case of a string of ASCII characters; a hexadecimal
  digit in upper case is a printed one (`upperCase_digit`).
-/

namespace NanoSwift

/-- The scalars that end a line in a regular expression. -/
def lineTerminators : List Char :=
  ['\n', '\x0b', '\x0c', '\r', '\u0085', '\u2028', '\u2029']

/-- A Swift character: one scalar, a carriage return with its line feed, or a
    cluster of several scalars. No cluster is made of ASCII scalars only, and
    line terminators are in none, as there is a break on both sides of them. -/
inductive Character
  | scalar (c : Char)
  | crlf
  | cluster (cs : List Char)
      (foreign : (∃ c ∈ cs, 128 ≤ c.toNat) ∧ ∀ c ∈ cs, c ∉ lineTerminators)
  deriving DecidableEq

/-- A Swift string. -/
abbrev Str := List Character

/-- The scalars of a character. -/
def Character.scalars : Character → List Char
  | scalar c => [c]
  | crlf => ['\r', '\n']
  | cluster cs _ => cs

/-- The scalars of a string. -/
def scalars (s : Str) : List Char := s.flatMap Character.scalars

/-- A string of single scalars. -/
def text (s : String) : Str := s.toList.map .scalar

theorem scalars_map_scalar (cs : List Char) : scalars (cs.map .scalar) = cs := by
  induction cs with
  | nil => rfl
  | cons c cs ih => simpa [scalars, Character.scalars] using ih

theorem scalars_append (s t : Str) : scalars (s ++ t) = scalars s ++ scalars t :=
  List.flatMap_append

/-- ASCII scalars, none of them a line terminator, are characters of their own,
    also before line terminators. -/
theorem eq_map_scalar_append {s : Str} {xs ys : List Char} (h : scalars s = xs ++ ys)
    (hxs : ∀ x ∈ xs, x.toNat < 128 ∧ x ∉ lineTerminators) (hys : ∀ y ∈ ys, y ∈ lineTerminators) :
    ∃ t, s = xs.map .scalar ++ t ∧ scalars t = ys := by
  induction s generalizing xs with
  | nil =>
    obtain ⟨rfl, rfl⟩ := List.append_eq_nil_iff.1 h.symm
    exact ⟨[], rfl, rfl⟩
  | cons c s ih =>
    rcases xs with _ | ⟨x, xs⟩
    · exact ⟨c :: s, rfl, h⟩
    -- The first character is the first scalar: a carriage return is a line
    -- terminator, and a cluster holds a foreign scalar and no line terminator.
    cases c with
    | scalar c =>
      obtain ⟨rfl, hs⟩ := List.cons.inj h
      obtain ⟨t, rfl, ht⟩ := ih hs fun y hy => hxs y (List.mem_cons_of_mem _ hy)
      exact ⟨t, rfl, ht⟩
    | crlf =>
      obtain ⟨rfl, _⟩ := List.cons.inj h
      exact absurd (by decide) (hxs '\r' List.mem_cons_self).2
    | cluster cs hcs =>
      obtain ⟨⟨y, hy, hlarge⟩, hterm⟩ := hcs
      have hmem : y ∈ (x :: xs) ++ ys := h ▸ List.mem_append_left _ hy
      rcases List.mem_append.1 hmem with hy' | hy'
      · exact absurd hlarge (not_le.2 (hxs y hy').1)
      · exact absurd (hys y hy') (hterm y hy)

/-! ## Digits -/

/-- The value of an ASCII digit or letter, in any radix. -/
def digitValue (c : Char) : Option ℕ :=
  if '0' ≤ c ∧ c ≤ '9' then some (c.toNat - 48)
  else if 'A' ≤ c ∧ c ≤ 'Z' then some (c.toNat - 55)
  else if 'a' ≤ c ∧ c ≤ 'z' then some (c.toNat - 87)
  else none

/-- The value of a character as a digit in the radix `radix`, if it is one. -/
def Character.digit (radix : ℕ) : Character → Option ℕ
  | scalar c => (digitValue c).filter (· < radix)
  | _ => none

/-- The digit `d`, in upper case. -/
def digit (d : ℕ) : Character := .scalar ("0123456789ABCDEF".toList.getD d '0')

theorem digit_digit {radix d : ℕ} (hr : radix ≤ 16) (hd : d < radix) :
    (digit d).digit radix = some d := by
  have h16 : ∀ d < 16, digitValue ("0123456789ABCDEF".toList.getD d '0') = some d := by decide
  rw [digit, Character.digit, h16 d (by omega)]
  simpa using hd

/-- What a digit character is, in hexadecimal. -/
theorem Character.digit_eq_some {radix d : ℕ} {c : Character} (h : c.digit radix = some d) :
    d < radix ∧ ∃ x, c = .scalar x ∧ digitValue x = some d := by
  cases c with
  | scalar x =>
    obtain ⟨hv, hlt⟩ := Option.filter_eq_some_iff.1 h
    exact ⟨by simpa using hlt, x, rfl, hv⟩
  | crlf => cases h
  | cluster cs hcs => cases h

/-! ## Integers -/

/-- The number a nonempty string of digits denotes. -/
def parseDigits (radix : ℕ) (s : Str) : Option ℕ :=
  if s = [] then none else (s.mapM (Character.digit radix)).map (Radix.value radix)

/-- `UInt8(s, radix: radix)`: digits after an optional sign, if the number they
    denote is a byte. -/
def parseByte (radix : ℕ) (s : Str) : Option UInt8 :=
  let positive (s : Str) : Option UInt8 :=
    ((parseDigits radix s).filter (· < 256)).map UInt8.ofNat
  match s with
  | .scalar '+' :: s => positive s
  | .scalar '-' :: s => ((parseDigits radix s).filter (· = 0)).map fun _ => 0
  | s => positive s

/-- `Int(String(c))` on a single character: a digit, as a sign needs digits. -/
def parseInt (c : Character) : Option ℕ := c.digit 10

theorem mapM_digit_map_digit {radix : ℕ} (hr : radix ≤ 16) {ds : List ℕ}
    (hds : ∀ d ∈ ds, d < radix) : (ds.map digit).mapM (Character.digit radix) = some ds := by
  induction ds with
  | nil => rfl
  | cons d ds ih =>
    rw [List.map_cons, List.mapM_cons, digit_digit hr (hds d List.mem_cons_self),
      ih fun e he => hds e (List.mem_cons_of_mem _ he)]
    rfl

/-- Printed digits are determined by what is printed. -/
theorem map_digit_inj {ds es : List ℕ} (hds : ∀ d ∈ ds, d < 16) (hes : ∀ e ∈ es, e < 16) :
    ds.map digit = es.map digit ↔ ds = es := by
  refine ⟨fun h => ?_, fun h => h ▸ rfl⟩
  have hparse := mapM_digit_map_digit le_rfl hds
  rw [h, mapM_digit_map_digit le_rfl hes] at hparse
  exact (Option.some.inj hparse).symm

theorem parseDigits_map_digit {radix : ℕ} (hr : radix ≤ 16) {ds : List ℕ} (hne : ds ≠ [])
    (hds : ∀ d ∈ ds, d < radix) :
    parseDigits radix (ds.map digit) = some (Radix.value radix ds) := by
  simp [parseDigits, hne, mapM_digit_map_digit hr hds]

/-- Digits parse as a byte if they denote one. -/
theorem parseByte_of_mapM {radix : ℕ} {s : Str} {ds : List ℕ} (hne : s ≠ [])
    (hs : s.mapM (Character.digit radix) = some ds) (hv : Radix.value radix ds < 256) :
    parseByte radix s = some (UInt8.ofNat (Radix.value radix ds)) := by
  have hp : parseDigits radix s = some (Radix.value radix ds) := by simp [parseDigits, hne, hs]
  -- No sign stands in front: signs are no digits.
  have hsign : ∀ t, s ≠ .scalar '+' :: t ∧ s ≠ .scalar '-' :: t := by
    refine fun t => ⟨?_, ?_⟩ <;> rintro rfl <;>
      simp [List.mapM_cons, Character.digit, digitValue] at hs
  unfold parseByte
  split
  · exact absurd rfl (hsign _).1
  · exact absurd rfl (hsign _).2
  · simp [hp, hv]

/-! ## Hexadecimal strings -/

/-- The upper case of an ASCII character; other characters are kept. -/
def Character.upperCase : Character → Character
  | scalar c => scalar c.toUpper
  | c => c

/-- The upper case of a string of ASCII characters. -/
def upperCase (s : Str) : Str := s.map Character.upperCase

/-- A string of hexadecimal digits, of either case. -/
def IsHex (s : Str) : Prop := ∀ c ∈ s, (c.digit 16).isSome

instance (s : Str) : Decidable (IsHex s) :=
  inferInstanceAs (Decidable (∀ c ∈ s, (c.digit 16).isSome))

theorem isHex_map_digit {ds : List ℕ} (hds : ∀ d ∈ ds, d < 16) : IsHex (ds.map digit) := by
  intro c hc
  obtain ⟨d, hd, rfl⟩ := List.mem_map.1 hc
  rw [digit_digit le_rfl (hds d hd)]
  rfl

/-- A hexadecimal digit in upper case is the printed digit of its value. -/
theorem upperCase_digit {c : Character} {d : ℕ} (h : c.digit 16 = some d) :
    c.upperCase = digit d := by
  obtain ⟨hd, x, rfl, hx⟩ := Character.digit_eq_some h
  have hofNat : x = Char.ofNat x.toNat := (Char.ofNat_toNat x).symm
  -- A digit, a capital up to `F` or a small letter up to `f`.
  have hrange : (48 ≤ x.toNat ∧ x.toNat < 58 ∧ d = x.toNat - 48) ∨
      (65 ≤ x.toNat ∧ x.toNat < 71 ∧ d = x.toNat - 55) ∨
      (97 ≤ x.toNat ∧ x.toNat < 103 ∧ d = x.toNat - 87) := by
    simp only [digitValue, Char.le_def, UInt32.le_iff_toNat_le] at hx
    change (if 48 ≤ x.toNat ∧ x.toNat ≤ 57 then _ else if 65 ≤ x.toNat ∧ x.toNat ≤ 90 then _ else
      if 97 ≤ x.toNat ∧ x.toNat ≤ 122 then _ else _) = _ at hx
    split_ifs at hx <;> simp only [Option.some.injEq] at hx <;> omega
  have hall : ∀ n < 103,
      (48 ≤ n ∧ n < 58 → (Character.scalar (Char.ofNat n)).upperCase = digit (n - 48)) ∧
      (65 ≤ n ∧ n < 71 → (Character.scalar (Char.ofNat n)).upperCase = digit (n - 55)) ∧
      (97 ≤ n ∧ n < 103 → (Character.scalar (Char.ofNat n)).upperCase = digit (n - 87)) := by decide
  rw [hofNat]
  rcases hrange with ⟨h₁, h₂, rfl⟩ | ⟨h₁, h₂, rfl⟩ | ⟨h₁, h₂, rfl⟩
  · exact (hall _ (by omega)).1 ⟨h₁, h₂⟩
  · exact (hall _ (by omega)).2.1 ⟨h₁, h₂⟩
  · exact (hall _ (by omega)).2.2 ⟨h₁, h₂⟩

end NanoSwift
