import Mathlib.Data.Nat.Digits.Lemmas
import Mathlib.Data.Option.Basic
import Mathlib.Tactic.NormNum

/-!
# Options and their texts

The options of `options.rs`, and how the text of an environment variable becomes a value. A text is a
list of bytes without a NUL. A number is read up to the first byte that is not a digit, by checked
arithmetic on `i64`; whatever the text is, it is either out of range or read exactly
(`parseI64_eq`). An option whose variable is set to a number of `i64`, other than the least one,
has that value (`env_value_round_trip`).
-/

namespace MimallocRs

namespace Options

/-- The options, in the order of their indices. -/
inductive Opt
  | verbose | showStats | eagerCommit | purgeDecommits | purgeDelay | arenaReserve | arenaPurgeMult
  deriving DecidableEq

/-- `OPT_COUNT`. -/
def optCount : ℕ := 7

/-- An option as an index. -/
def Opt.index : Opt → ℕ
  | .verbose => 0
  | .showStats => 1
  | .eagerCommit => 2
  | .purgeDecommits => 3
  | .purgeDelay => 4
  | .arenaReserve => 5
  | .arenaPurgeMult => 6

/-- `Opt::from_index`. -/
def Opt.fromIndex : ℤ → Option Opt
  | 0 => some .verbose
  | 1 => some .showStats
  | 2 => some .eagerCommit
  | 3 => some .purgeDecommits
  | 4 => some .purgeDelay
  | 5 => some .arenaReserve
  | 6 => some .arenaPurgeMult
  | _ => none

/-- `Opt::env_name`. -/
def Opt.envName : Opt → String
  | .verbose => "MIMALLOC_VERBOSE"
  | .showStats => "MIMALLOC_SHOW_STATS"
  | .eagerCommit => "MIMALLOC_EAGER_COMMIT"
  | .purgeDecommits => "MIMALLOC_PURGE_DECOMMITS"
  | .purgeDelay => "MIMALLOC_PURGE_DELAY"
  | .arenaReserve => "MIMALLOC_ARENA_RESERVE"
  | .arenaPurgeMult => "MIMALLOC_ARENA_PURGE_MULT"

/-- `Opt::default_value`. -/
def Opt.defaultValue : Opt → ℤ
  | .eagerCommit => 1
  | .purgeDecommits => 1
  | .purgeDelay => 1000
  | .arenaPurgeMult => 1
  | _ => 0

/-- The values of `i64`. -/
def InI64 (v : ℤ) : Prop := -2 ^ 63 ≤ v ∧ v < 2 ^ 63

instance (v : ℤ) : Decidable (InI64 v) := inferInstanceAs (Decidable (_ ∧ _))

/-- A result of checked arithmetic. -/
def checked (v : ℤ) : Option ℤ := if InI64 v then some v else none

/-- `is_ascii_digit`. -/
def isAsciiDigit (b : UInt8) : Bool := 48 ≤ b ∧ b ≤ 57

/-- The digit of a byte. -/
def digit (b : UInt8) : ℕ := b.toNat - 48

/-- The loop of `parse_i64`. -/
def parseDigits : List UInt8 → ℤ → Option ℤ
  | [], v => some v
  | c :: cs, v =>
    if isAsciiDigit c then
      (checked (v * 10)).bind fun w => (checked (w + digit c)).bind fun w => parseDigits cs w
    else some v

/-- Whether a text starts with `-`. -/
def negative (b : List UInt8) : Bool := b.head? = some 45

/-- A text without its sign. -/
def unsigned (b : List UInt8) : List UInt8 := if negative b then b.tail else b

/-- `parse_i64`. -/
def parseI64 (b : List UInt8) : Option ℤ :=
  match (unsigned b).head? with
  | none => none
  | some d =>
    if isAsciiDigit d then
      (parseDigits (unsigned b) 0).map fun v => if negative b then -v else v
    else none

/-- `DefaultPrim::getenv`, into a buffer of `len` bytes, in the environment `env`. -/
def getenv (env : String → Option (List UInt8)) (name : String) (len : ℕ) : Option (List UInt8) :=
  if 256 ≤ name.utf8ByteSize then none else (env name).map (List.take (len - 1))

/-- `env_value`, in the environment `env`. -/
def envValue (env : String → Option (List UInt8)) (o : Opt) : ℤ :=
  match getenv env o.envName 64 with
  | some (c :: b) =>
    if isAsciiDigit c ∨ c = 45 then (parseI64 (c :: b)).getD o.defaultValue
    else if c = 121 ∨ c = 89 ∨ c = 116 ∨ c = 84 then 1
    else 0
  | _ => o.defaultValue

/-! ## What is read -/

/-- The number that digits stand for, after one that has been read. -/
def numberFrom (v : ℕ) (ds : List UInt8) : ℕ := ds.foldl (fun v d => v * 10 + digit d) v

/-- The digits at the front of a text, behind its sign. -/
def digits (b : List UInt8) : List UInt8 := (unsigned b).takeWhile isAsciiDigit

/-- The number at the front of a text. -/
def number (b : List UInt8) : ℤ :=
  if negative b then -(numberFrom 0 (digits b) : ℤ) else numberFrom 0 (digits b)

theorem le_numberFrom (v : ℕ) (ds : List UInt8) : v ≤ numberFrom v ds := by
  induction ds generalizing v with
  | nil => exact le_rfl
  | cons d ds ih =>
    have hle := ih (v * 10 + digit d)
    show v ≤ numberFrom (v * 10 + digit d) ds
    omega

theorem checked_natCast (v : ℕ) : checked v = if v < 2 ^ 63 then some (v : ℤ) else none := by
  have hiff : InI64 v ↔ v < 2 ^ 63 := by
    unfold InI64
    omega
  simp only [checked, hiff]

/-- The loop reads the digits, unless what they stand for is out of range. -/
theorem parseDigits_eq (cs : List UInt8) (v : ℕ) (hv : v < 2 ^ 63) :
    parseDigits cs v = if numberFrom v (cs.takeWhile isAsciiDigit) < 2 ^ 63 then
      some (numberFrom v (cs.takeWhile isAsciiDigit) : ℤ) else none := by
  induction cs generalizing v with
  | nil => exact (if_pos hv).symm
  | cons c cs ih =>
    unfold parseDigits
    by_cases hc : isAsciiDigit c = true
    · rw [if_pos hc, List.takeWhile_cons_of_pos hc]
      show _ = if numberFrom (v * 10 + digit c) _ < 2 ^ 63 then _ else none
      have hle := le_numberFrom (v * 10 + digit c) (cs.takeWhile isAsciiDigit)
      rw [show (v : ℤ) * 10 = (v * 10 : ℕ) by push_cast; rfl, checked_natCast]
      by_cases hmul : v * 10 < 2 ^ 63
      · rw [if_pos hmul, Option.bind_some,
          show ((v * 10 : ℕ) : ℤ) + digit c = (v * 10 + digit c : ℕ) by push_cast; rfl,
          checked_natCast]
        by_cases hadd : v * 10 + digit c < 2 ^ 63
        · rw [if_pos hadd, Option.bind_some, ih _ hadd]
          rfl
        · rw [if_neg hadd, Option.bind_none, if_neg (by omega)]
      · rw [if_neg hmul, Option.bind_none, if_neg (by omega)]
    · rw [if_neg hc, List.takeWhile_cons_of_neg hc]
      exact (if_pos hv).symm

theorem digits_eq_nil_iff (b : List UInt8) :
    digits b = [] ↔ ∀ d, (unsigned b).head? = some d → isAsciiDigit d = false := by
  unfold digits
  cases unsigned b with
  | nil => simp
  | cons d ds =>
    cases hd : isAsciiDigit d <;> simp [hd]

/-- **Every text** is read as the number at its front, if there is one and its digits stand for a
number below `2 ^ 63`, and is refused otherwise. -/
theorem parseI64_spec (b : List UInt8) :
    parseI64 b = if digits b ≠ [] ∧ numberFrom 0 (digits b) < 2 ^ 63 then some (number b)
      else none := by
  unfold parseI64
  have hnil := digits_eq_nil_iff b
  cases hu : (unsigned b).head? with
  | none =>
    have hempty : digits b = [] := hnil.mpr fun d hd => by rw [hu] at hd; cases hd
    simp [hempty]
  | some d =>
    dsimp only
    cases hd : isAsciiDigit d with
    | false =>
      have hempty : digits b = [] := hnil.mpr fun d' hd' => by
        rw [hu] at hd'
        cases hd'
        exact hd
      simp [hempty]
    | true =>
      have hne : digits b ≠ [] := by
        intro hempty
        have := hnil.mp hempty d hu
        rw [hd] at this
        cases this
      have hparse := parseDigits_eq (unsigned b) 0 (by norm_num)
      rw [if_pos rfl, show (0 : ℤ) = ((0 : ℕ) : ℤ) from rfl, hparse]
      show Option.map _ (if numberFrom 0 (digits b) < 2 ^ 63 then
        some (numberFrom 0 (digits b) : ℤ) else none) = _
      by_cases hlt : numberFrom 0 (digits b) < 2 ^ 63
      · rw [if_pos hlt, if_pos ⟨hne, hlt⟩, Option.map_some]
        rfl
      · rw [if_neg hlt, if_neg fun h => hlt h.2, Option.map_none]

/-! ## What is written is read back -/

/-- The byte of a digit. -/
def digitByte (d : ℕ) : UInt8 := UInt8.ofNat (48 + d)

/-- The decimal text of a natural number. -/
def decimalNat (n : ℕ) : List UInt8 :=
  if n = 0 then [digitByte 0] else ((Nat.digits 10 n).map digitByte).reverse

/-- The decimal text of an integer. -/
def decimal (v : ℤ) : List UInt8 :=
  if v < 0 then 45 :: decimalNat v.natAbs else decimalNat v.natAbs

theorem toNat_digitByte {d : ℕ} (hd : d < 10) : (digitByte d).toNat = 48 + d := by
  unfold digitByte
  rw [UInt8.toNat_ofNat']
  omega

theorem isAsciiDigit_digitByte {d : ℕ} (hd : d < 10) : isAsciiDigit (digitByte d) = true := by
  have hbyte := toNat_digitByte hd
  unfold isAsciiDigit
  rw [decide_eq_true_iff, UInt8.le_iff_toNat_le, UInt8.le_iff_toNat_le, hbyte]
  show 48 ≤ 48 + d ∧ 48 + d ≤ 57
  omega

theorem digit_digitByte {d : ℕ} (hd : d < 10) : digit (digitByte d) = d := by
  unfold digit
  rw [toNat_digitByte hd]
  omega

theorem decimalNat_ne_nil (n : ℕ) : decimalNat n ≠ [] := by
  unfold decimalNat
  split
  · simp
  · next hn => simpa [Nat.digits_eq_nil_iff_eq_zero] using hn

theorem decimalNat_digits (n : ℕ) : ∀ b ∈ decimalNat n, isAsciiDigit b = true := by
  intro b hb
  unfold decimalNat at hb
  split at hb
  · rw [List.mem_singleton] at hb
    rw [hb]
    exact isAsciiDigit_digitByte (by omega)
  · rw [List.mem_reverse, List.mem_map] at hb
    obtain ⟨d, hd, rfl⟩ := hb
    exact isAsciiDigit_digitByte (Nat.digits_lt_base (by omega) hd)

/-- The digits of a number stand for it. -/
theorem numberFrom_decimalNat (n : ℕ) : numberFrom 0 (decimalNat n) = n := by
  have hdigits : ∀ ds : List ℕ, (∀ d ∈ ds, d < 10) →
      numberFrom 0 (ds.map digitByte).reverse = Nat.ofDigits 10 ds := by
    intro ds hds
    unfold numberFrom
    rw [List.foldl_reverse]
    induction ds with
    | nil => rfl
    | cons d ds ih =>
      rw [List.map_cons, List.foldr_cons, ih fun d' hd' => hds d' (List.mem_cons_of_mem _ hd'),
        digit_digitByte (hds d List.mem_cons_self), Nat.ofDigits_cons]
      omega
  unfold decimalNat
  split
  · next hn =>
    rw [hn]
    exact digit_digitByte (d := 0) (by omega)
  · rw [hdigits _ fun d hd => Nat.digits_lt_base (by omega) hd, Nat.ofDigits_digits]

/-- Nothing that follows is taken for a digit. -/
theorem takeWhile_decimalNat (n : ℕ) {rest : List UInt8}
    (hrest : ∀ d, rest.head? = some d → isAsciiDigit d = false) :
    (decimalNat n ++ rest).takeWhile isAsciiDigit = decimalNat n := by
  rw [List.takeWhile_append_of_pos (decimalNat_digits n)]
  cases rest with
  | nil => simp
  | cons d ds =>
    rw [List.takeWhile_cons_of_neg (by simp [hrest d rfl]), List.append_nil]

theorem not_negative_decimalNat (n : ℕ) (rest : List UInt8) :
    negative (decimalNat n ++ rest) = false := by
  have hdigits := decimalNat_digits n
  have hne := decimalNat_ne_nil n
  cases hd : decimalNat n with
  | nil => exact absurd hd hne
  | cons d ds =>
    rw [hd] at hdigits
    have hdigit := hdigits d List.mem_cons_self
    unfold negative
    simp only [List.cons_append, List.head?_cons, Option.some.injEq, decide_eq_false_iff_not]
    rintro rfl
    cases hdigit

theorem digits_decimal (v : ℤ) {rest : List UInt8}
    (hrest : ∀ d, rest.head? = some d → isAsciiDigit d = false) :
    digits (decimal v ++ rest) = decimalNat v.natAbs ∧
      negative (decimal v ++ rest) = decide (v < 0) := by
  unfold decimal digits unsigned
  by_cases hv : v < 0
  · simp only [hv, if_true, decide_true]
    exact ⟨takeWhile_decimalNat _ hrest, rfl⟩
  · simp only [hv, decide_false, not_negative_decimalNat, Bool.false_eq_true, if_false]
    exact ⟨takeWhile_decimalNat _ hrest, trivial⟩

/-- A decimal text is read as its number, if that is in range and not the least number of `i64`. -/
theorem parseI64_decimal (v : ℤ) {rest : List UInt8}
    (hrest : ∀ d, rest.head? = some d → isAsciiDigit d = false) :
    parseI64 (decimal v ++ rest) = if -2 ^ 63 < v ∧ v < 2 ^ 63 then some v else none := by
  obtain ⟨hdigits, hneg⟩ := digits_decimal v hrest
  have hrange : v.natAbs < 2 ^ 63 ↔ -2 ^ 63 < v ∧ v < 2 ^ 63 := by omega
  have hnumber : number (decimal v ++ rest) = v := by
    unfold number
    rw [hdigits, hneg, numberFrom_decimalNat]
    by_cases hv : v < 0
    · rw [decide_eq_true hv, if_pos rfl]
      omega
    · rw [decide_eq_false hv, if_neg Bool.false_ne_true]
      omega
  rw [parseI64_spec, hdigits, numberFrom_decimalNat, hnumber]
  simp only [ne_eq, decimalNat_ne_nil, not_false_eq_true, true_and, hrange]

/-- The text of a number of `i64` fits into the buffer. -/
theorem length_decimal {v : ℤ} (hv : v.natAbs < 2 ^ 63) : (decimal v).length ≤ 20 := by
  have hnat : (decimalNat v.natAbs).length ≤ 19 := by
    unfold decimalNat
    split
    · simp
    · rw [List.length_reverse, List.length_map, Nat.digits_length_le_iff (by omega)]
      exact hv.trans (by norm_num)
  unfold decimal
  split
  · rw [List.length_cons]
    omega
  · omega

theorem decimal_head (v : ℤ) :
    ∃ c b, decimal v = c :: b ∧ (isAsciiDigit c = true ∨ c = 45) := by
  have hdigits := decimalNat_digits v.natAbs
  have hne := decimalNat_ne_nil v.natAbs
  unfold decimal
  split
  · exact ⟨45, _, rfl, Or.inr rfl⟩
  · cases hd : decimalNat v.natAbs with
    | nil => exact absurd hd hne
    | cons c b =>
      rw [hd] at hdigits
      exact ⟨c, b, rfl, Or.inl (hdigits c List.mem_cons_self)⟩

/-- The names of the variables are short. -/
theorem envName_short (o : Opt) : o.envName.utf8ByteSize < 256 := by
  cases o <;> decide

/-- What is read of a text is a value of `i64`. -/
theorem parseI64_range {b : List UInt8} {v : ℤ} (h : parseI64 b = some v) : InI64 v := by
  rw [parseI64_spec] at h
  split at h
  · next hlt =>
    cases h
    unfold number InI64
    split <;> omega
  · cases h

theorem envValue_range (env : String → Option (List UInt8)) (o : Opt) :
    InI64 (envValue env o) := by
  have hdefault : InI64 o.defaultValue := by cases o <;> decide
  unfold envValue
  split
  · next c b _ =>
    split
    · cases hp : parseI64 (c :: b) with
      | none => exact hdefault
      | some v => exact parseI64_range hp
    · split <;> decide
  · exact hdefault

theorem envValue_decimal {env : String → Option (List UInt8)} {o : Opt} {v : ℤ}
    (hv : -2 ^ 63 < v ∧ v < 2 ^ 63) (henv : env o.envName = some (decimal v)) :
    envValue env o = v := by
  have hlength : (decimal v).length ≤ 64 - 1 := (length_decimal (v := v) (by omega)).trans (by omega)
  have hget : getenv env o.envName 64 = some (decimal v) := by
    unfold getenv
    rw [if_neg (by have := envName_short o; omega), henv, Option.map_some,
      List.take_of_length_le hlength]
  have hparse : parseI64 (decimal v ++ []) = _ := parseI64_decimal v (by simp)
  rw [List.append_nil, if_pos hv] at hparse
  obtain ⟨c, b, hb, hc⟩ := decimal_head v
  unfold envValue
  rw [hget]
  rw [hb] at hparse ⊢
  dsimp only
  rw [if_pos hc, hparse]
  rfl

/-- **Option texts.** Whatever a variable is set to, the value is one of `i64`; every decimal text is
read as its number, if that is in range and not the least number of `i64`, and refused otherwise,
whatever other bytes follow; and an option whose variable is set to such a number has that value. -/
theorem option_text (env : String → Option (List UInt8)) (o : Opt) :
    InI64 (envValue env o) ∧
    (∀ (v : ℤ) (rest : List UInt8), (∀ d, rest.head? = some d → isAsciiDigit d = false) →
      parseI64 (decimal v ++ rest) = if -2 ^ 63 < v ∧ v < 2 ^ 63 then some v else none) ∧
    (∀ b, parseI64 b = if digits b ≠ [] ∧ numberFrom 0 (digits b) < 2 ^ 63 then some (number b)
      else none) ∧
    ∀ v : ℤ, -2 ^ 63 < v ∧ v < 2 ^ 63 → env o.envName = some (decimal v) → envValue env o = v :=
  ⟨envValue_range env o, fun v _ hrest => parseI64_decimal v hrest, parseI64_spec,
    fun _ hv henv => envValue_decimal hv henv⟩

/-- Numbers are read up to the first other byte; the least number of `i64` is not read. -/
example : parseI64 "-7ms".toUTF8.toList = some (-7) ∧
    parseI64 "-9223372036854775808".toUTF8.toList = none := by decide +kernel

end Options

end MimallocRs
