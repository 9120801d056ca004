import DeferredTypes.Number.Numeral

/-! Numerals and their texts. The text of a numeral reads back as the numeral if its digits before the
point are as they must be, and those of integers and of doubles are: neither begins with a zero that more
digits follow. For doubles this rests on the shortest decimal having a first digit other than zero. -/

namespace DeferredTypes

namespace Digits

theorem ofNat_ne_nil (number : Nat) : ofNat number ≠ [] := by
  unfold ofNat
  split <;> simp

/-- There is a digit, and no zero stands in front of others. -/
structure WellFormed (digits : List Digit) : Prop where
  nonempty : digits ≠ []
  leading : digits.head? = some .zero → digits.length = 1

/-- Only the digits of zero begin with a zero. -/
theorem head?_ofNat {number : Nat} (hnumber : number ≠ 0) : (ofNat number).head? ≠ some .zero := by
  fun_induction ofNat number with
  | case1 number hsmall =>
      intro hhead
      have hzero : number % 10 = 0 := congrArg Fin.val (Option.some.inj hhead)
      omega
  | case2 number hlarge ih =>
      obtain ⟨first, others, hdigits⟩ := List.exists_cons_of_ne_nil (ofNat_ne_nil (number / 10))
      rw [hdigits] at ih ⊢
      exact ih (by omega)

/-- A number is written without leading zeros. -/
theorem wellFormed_ofNat (number : Nat) : WellFormed (ofNat number) where
  nonempty := ofNat_ne_nil number
  leading hhead := by
    by_cases hzero : number = 0
    · rw [hzero, ofNat, if_pos (by decide)]
      rfl
    · exact absurd hhead (head?_ofNat hzero)

/-- Digits that begin as those of a number other than zero do. -/
theorem wellFormed_of_head? {digits : List Digit} {number : Nat} (hnumber : number ≠ 0)
    (hhead : digits.head? = (ofNat number).head?) : WellFormed digits where
  nonempty hnil := by
    rw [hnil, List.head?_nil, eq_comm, List.head?_eq_none_iff] at hhead
    exact ofNat_ne_nil number hhead
  leading hzero := absurd (hhead.symm.trans hzero) (head?_ofNat hnumber)

end Digits

namespace Numeral

/-! ### Texts of numerals -/

/-- A text with which a numeral before it does not go on. -/
def Stops (rest : List Char) : Prop :=
  ∀ c ∈ rest.head?, Digit.ofChar? c = none ∧ c ≠ '.' ∧ c ≠ 'e' ∧ c ≠ 'E'

def fractionText (fraction : List Digit) : List Char :=
  if fraction.isEmpty then [] else '.' :: fraction.map Digit.toChar

def exponentText : Option Int → List Char
  | none => []
  | some exponent =>
      'e' :: (if exponent < 0 then '-' else '+') :: (Digits.ofNat exponent.natAbs).map Digit.toChar

theorem toList_text (numeral : Numeral) :
    numeral.text.toList = (if numeral.negative then ['-'] else []) ++
      (numeral.whole.map Digit.toChar ++ (fractionText numeral.fraction ++ exponentText numeral.exponent)) := by
  obtain ⟨negative, whole, fraction, exponent⟩ := numeral
  have hsign : (if negative then "-" else "").toList = if negative then ['-'] else [] := by
    cases negative <;> rfl
  have hfraction : (if fraction.isEmpty then "" else "." ++ Digits.text fraction).toList =
      fractionText fraction := by
    rw [fractionText]
    split <;> simp [Digits.text]
  have hdigits : ∀ digits, (Digits.text digits).toList = digits.map Digit.toChar := fun digits =>
    String.toList_ofList
  cases exponent with
  | none => simp only [text, exponentText, String.toList_append, hsign, hdigits, hfraction, String.toList_empty,
      List.append_assoc]
  | some exponent =>
      have hexponent : (if exponent < 0 then "-" else "+").toList = [if exponent < 0 then '-' else '+'] := by
        split <;> rfl
      have hletter : "e".toList = ['e'] := rfl
      simp only [text, exponentText, String.toList_append, hsign, hdigits, hfraction, hletter, hexponent,
        List.append_assoc, List.cons_append, List.nil_append]

/-- A text that begins as a numeral does: with a sign or with a digit. -/
def Begins (text : List Char) : Prop := ∃ c rest, text = c :: rest ∧ (c = '-' ∨ (Digit.ofChar? c).isSome)

theorem begins_text {numeral : Numeral} (hnumeral : numeral.whole ≠ []) (rest : List Char) :
    Begins (numeral.text.toList ++ rest) := by
  obtain ⟨first, others, hwhole⟩ := List.exists_cons_of_ne_nil hnumeral
  rw [toList_text, hwhole]
  cases numeral.negative with
  | true => exact ⟨_, _, rfl, Or.inl rfl⟩
  | false => exact ⟨_, _, rfl, Or.inr (by rw [Digit.ofChar?_toChar]; rfl)⟩

/-! ### Reading them -/

variable {rest : List Char}

theorem takeDigits_append (hrest : ∀ c ∈ rest.head?, Digit.ofChar? c = none) (digits : List Digit) :
    takeDigits (digits.map Digit.toChar ++ rest) = (digits, rest) := by
  induction digits with
  | nil =>
      cases rest with
      | nil => rfl
      | cons c rest => simp [takeDigits, hrest c rfl]
  | cons digit digits ih => simp [takeDigits, Digit.ofChar?_toChar, ih]

theorem takeSign_append {digits : List Digit} (hdigits : digits ≠ []) (negative : Bool) :
    takeSign ((if negative then ['-'] else []) ++ (digits.map Digit.toChar ++ rest)) =
      (negative, digits.map Digit.toChar ++ rest) := by
  cases negative with
  | true => rfl
  | false =>
      cases digits with
      | nil => exact absurd rfl hdigits
      | cons digit digits =>
          have hminus : ∀ digit : Digit, digit.toChar ≠ '-' := by decide
          simp [takeSign, hminus]

theorem takeWhole_append (hrest : ∀ c ∈ rest.head?, Digit.ofChar? c = none) {whole : List Digit}
    (hwhole : Digits.WellFormed whole) :
    takeWhole (whole.map Digit.toChar ++ rest) = some (whole, rest) := by
  rw [takeWhole, takeDigits_append hrest]
  cases whole with
  | nil => exact absurd rfl hwhole.nonempty
  | cons first others =>
      dsimp only
      rw [if_neg]
      rintro ⟨rfl, hothers⟩
      have hlength := hwhole.leading rfl
      simp only [List.length_cons, Nat.add_eq_right, List.length_eq_zero_iff] at hlength
      exact hothers hlength

theorem takeFraction_append (hdigit : ∀ c ∈ rest.head?, Digit.ofChar? c = none)
    (hpoint : rest.head? ≠ some '.') (fraction : List Digit) :
    takeFraction (fractionText fraction ++ rest) = some (fraction, rest) := by
  cases fraction with
  | nil =>
      change takeFraction rest = some ([], rest)
      unfold takeFraction
      split
      · exact absurd rfl hpoint
      · rfl
  | cons first others =>
      change takeFraction ('.' :: ((first :: others).map Digit.toChar ++ rest)) = _
      rw [takeFraction, takeDigits_append hdigit]

/-- An exponent is read back, and where there is none, none is read. -/
theorem takeExponent_append (hrest : Stops rest) (exponent : Option Int) :
    takeExponent (exponentText exponent ++ rest) = some (exponent, rest) := by
  have hdigit : ∀ c ∈ rest.head?, Digit.ofChar? c = none := fun c hc => (hrest c hc).1
  cases exponent with
  | none =>
      change takeExponent rest = some (none, rest)
      cases rest with
      | nil => rfl
      | cons c rest =>
          obtain ⟨-, -, hlower, hupper⟩ := hrest c rfl
          rw [takeExponent, if_neg (not_or.mpr ⟨hlower, hupper⟩)]
  | some exponent =>
      have hread : ∀ negative, takeExponentDigits negative
          ((Digits.ofNat exponent.natAbs).map Digit.toChar ++ rest) =
            some (some (if negative then -(exponent.natAbs : Int) else exponent.natAbs), rest) := by
        intro negative
        rw [takeExponentDigits, takeDigits_append hdigit]
        cases hdigits : Digits.ofNat exponent.natAbs with
        | nil => exact absurd hdigits (Digits.ofNat_ne_nil _)
        | cons first others =>
            dsimp only
            rw [← hdigits, Digits.value_ofNat]
      by_cases hnegative : exponent < 0
      · have habs : -(exponent.natAbs : Int) = exponent := by omega
        rw [exponentText, if_pos hnegative, List.cons_append, List.cons_append, takeExponent, if_pos (Or.inl rfl)]
        refine (hread true).trans ?_
        rw [if_pos rfl, habs]
      · have habs : (exponent.natAbs : Int) = exponent := by omega
        rw [exponentText, if_neg hnegative, List.cons_append, List.cons_append, takeExponent, if_pos (Or.inl rfl)]
        refine (hread false).trans ?_
        rw [if_neg Bool.false_ne_true, habs]

/-- An exponent, or what stands in its place, ends the digits before it. -/
theorem Stops.head_exponentText (hrest : Stops rest) (exponent : Option Int) :
    ∀ c ∈ (exponentText exponent ++ rest).head?, Digit.ofChar? c = none ∧ c ≠ '.' := by
  cases exponent with
  | none => exact fun c hc => ⟨(hrest c hc).1, (hrest c hc).2.1⟩
  | some exponent =>
      rintro c ⟨⟩
      decide

theorem Stops.head_fractionText (hrest : Stops rest) (fraction : List Digit) (exponent : Option Int) :
    ∀ c ∈ (fractionText fraction ++ (exponentText exponent ++ rest)).head?,
      Digit.ofChar? c = none := by
  cases fraction with
  | nil => exact fun c hc => (hrest.head_exponentText exponent c hc).1
  | cons digit fraction =>
      rintro c ⟨⟩
      decide

/-- The text of a numeral reads back as the numeral. -/
theorem scan?_text {numeral : Numeral} (hnumeral : Digits.WellFormed numeral.whole) (hrest : Stops rest) :
    scan? (numeral.text.toList ++ rest) = some (numeral, rest) := by
  obtain ⟨negative, whole, fraction, exponent⟩ := numeral
  have hexponent := hrest.head_exponentText exponent
  have hfraction := takeFraction_append (fun c hc => (hexponent c hc).1)
    (fun hhead => (hexponent '.' hhead).2 rfl) fraction
  have hwhole := takeWhole_append (hrest.head_fractionText fraction exponent) hnumeral
  rw [toList_text, List.append_assoc, List.append_assoc, List.append_assoc]
  simp only [scan?, takeSign_append hnumeral.nonempty, Option.bind_eq_bind, hwhole, Option.bind_some, hfraction,
    takeExponent_append hrest]
  rfl

/-! ### Integers -/

theorem toInt64?_ofInt (value : Int64) : (ofInt value.toInt).toInt64? = some value := by
  have hlow := value.le_toInt
  have hhigh := value.toInt_lt
  simp only [toInt64?, ofInt, Digits.value_ofNat, List.isEmpty_nil, true_and, if_true, decide_eq_true_eq]
  by_cases hnegative : value.toInt < 0
  · have habs : -(value.toInt.natAbs : Int) = value.toInt := by omega
    rw [if_pos hnegative, if_pos (by omega), habs, Int64.ofInt_toInt]
  · have habs : (value.toInt.natAbs : Int) = value.toInt := by omega
    rw [if_neg hnegative, if_pos (by omega), habs, Int64.ofInt_toInt]

end Numeral

/-! ### Doubles -/

namespace RoundingInterval

theorem low_pos {x : Dyadic} (hx : x.mantissa ≠ 0) : 0 < (ofMagnitude x).low := by
  have hscale : 0 < 1 <<< (x.exponent - 2).toNat := by
    rw [Nat.one_shiftLeft]
    exact Nat.two_pow_pos _
  apply Nat.mul_pos _ hscale
  split <;> omega

theorem not_holds_zero {interval : RoundingInterval} (hlow : 0 < interval.low) {den : Nat} (hden : 0 < den) :
    interval.holds 0 den = false := by
  have hpos : 0 < interval.low * den := Nat.mul_pos hlow hden
  unfold holds
  split
  · rw [decide_eq_false_iff_not]
    omega
  · rw [decide_eq_false_iff_not]
    omega

/-- The decimal that is taken lies in the interval. -/
theorem holds_of_decimal? {interval : RoundingInterval} {tie : Tie} {count : Nat} {decimal : Decimal}
    (hdecimal : interval.decimal? tie count = some decimal) :
    interval.holds (decimal.digits * Nat.pow 10 decimal.exponent.toNat)
      (Nat.pow 10 (-decimal.exponent).toNat) = true := by
  let fits (exponent : Int) (digits : Nat) : Bool :=
    interval.holds (digits * Nat.pow 10 exponent.toNat) (Nat.pow 10 (-exponent).toNat)
  have htaken : ∀ near far exponent,
      (if fits exponent near then some (⟨near, exponent⟩ : Decimal)
        else if fits exponent far then some ⟨far, exponent⟩ else none) = some decimal →
      fits decimal.exponent decimal.digits = true := by
    intro near far exponent htaken
    split at htaken
    · rename_i hnear
      obtain rfl := Option.some.inj htaken
      exact hnear
    · split at htaken
      · rename_i hfar
        obtain rfl := Option.some.inj htaken
        exact hfar
      · cases htaken
  exact htaken _ _ _ hdecimal

theorem digits_ne_zero_of_decimal? {interval : RoundingInterval} (hlow : 0 < interval.low) {tie : Tie}
    {count : Nat} {decimal : Decimal} (hdecimal : interval.decimal? tie count = some decimal) :
    decimal.digits ≠ 0 := by
  intro hzero
  have hholds := holds_of_decimal? hdecimal
  have hden : 0 < Nat.pow 10 (-decimal.exponent).toNat := Nat.pow_pos (by decide)
  rw [hzero, Nat.zero_mul, not_holds_zero hlow hden] at hholds
  cases hholds

end RoundingInterval

namespace Decimal

/-- A decimal is zero only if it is written as one digit. -/
def Proper (x : Decimal) : Prop := x.digits = 0 → x.exponent = 0

theorem digits_trim_ne_zero {x : Decimal} (hx : x.digits ≠ 0) : x.trim.digits ≠ 0 := by
  fun_induction trim x with
  | case1 x hzeros ih => exact ih (by simp only; omega)
  | case2 x _ => exact hx

/-- A shortest decimal has an exponent only if it is not zero. -/
theorem proper_shortest (x : Binary64) (tie : Tie) : (x.shortest tie).Proper := by
  unfold Binary64.shortest
  split
  · exact fun _ => rfl
  · rename_i hmantissa
    dsimp only
    split
    · rename_i decimal hfound
      obtain ⟨count, -, hdecimal⟩ := List.exists_of_findSome?_eq_some hfound
      have hdigits := RoundingInterval.digits_ne_zero_of_decimal? (RoundingInterval.low_pos hmantissa) hdecimal
      exact fun hzero => absurd hzero (digits_trim_ne_zero hdigits)
    · exact fun _ => rfl

/-- The digits before the point are those of a number, with zeros behind them or cut off at the point, or
they are one zero. -/
theorem wellFormed_split {x : Decimal} (hx : x.Proper) : Digits.WellFormed x.split.1 := by
  have hdigits := Digits.wellFormed_ofNat x.digits
  unfold split
  dsimp only
  by_cases hexponent : 0 ≤ x.exponent
  · rw [if_pos hexponent]
    by_cases hzero : x.digits = 0
    · rw [hx hzero]
      simpa using hdigits
    · apply Digits.wellFormed_of_head? hzero
      obtain ⟨first, others, hcons⟩ := List.exists_cons_of_ne_nil hdigits.nonempty
      rw [hcons]
      rfl
  · have hzero : x.digits ≠ 0 := fun hzero => hexponent (hx hzero ▸ Int.le_refl 0)
    rw [if_neg hexponent, List.splitAt_eq]
    generalize (-x.exponent).toNat = places
    by_cases hshort : (Digits.ofNat x.digits).length ≤ places
    · -- All digits stand behind the point, and one of the zeros stands before it.
      obtain ⟨count, hcount⟩ : ∃ count, places + 1 - (Digits.ofNat x.digits).length = count + 1 :=
        ⟨places - (Digits.ofNat x.digits).length, by omega⟩
      have hone : count + 1 + (Digits.ofNat x.digits).length - places = 1 := by omega
      rw [hcount, List.length_append, List.length_replicate, hone, List.replicate_succ]
      exact ⟨List.cons_ne_nil _ _, fun _ => rfl⟩
    · have hnone : places + 1 - (Digits.ofNat x.digits).length = 0 := by omega
      apply Digits.wellFormed_of_head? hzero
      rw [hnone, List.replicate_zero, List.nil_append, List.head?_take, if_neg (by omega)]

end Decimal

theorem Numeral.wellFormed_ofBinary64? {x : Binary64} {numeral : Numeral}
    (hnumeral : ofBinary64? x = some numeral) : Digits.WellFormed numeral.whole := by
  unfold ofBinary64? at hnumeral
  split at hnumeral
  · dsimp only at hnumeral
    split at hnumeral
    · obtain rfl := Option.some.inj hnumeral
      exact Decimal.wellFormed_split (Decimal.proper_shortest x .even)
    · obtain rfl := Option.some.inj hnumeral
      obtain ⟨first, others, hcons⟩ :=
        List.exists_cons_of_ne_nil (Digits.ofNat_ne_nil (x.shortest .even).digits)
      rw [hcons]
      exact ⟨List.cons_ne_nil _ _, fun _ => rfl⟩
  · cases hnumeral

end DeferredTypes
