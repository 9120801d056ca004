import DeferredTypes.Number.Numeral

/-! The tokens of JSON texts. -/

namespace DeferredTypes.Json

/-- A token. A string in which an escape stands for half of a character has no value. -/
inductive Token
  | openBrace
  | closeBrace
  | openBracket
  | closeBracket
  | colon
  | comma
  | null
  | bool (value : Bool)
  | number (numeral : Numeral)
  | string (value : Option String)
  deriving DecidableEq

/-- A part of a written string: a character, or a 16-bit unit given by its code. -/
inductive Piece
  | plain (c : Char)
  | unit (code : Nat)
  deriving DecidableEq

/-- The characters of a string. A unit beyond the surrogates is a character by itself; a high surrogate
must be followed by a low one, and the two make a character together. -/
def Piece.chars? : List Piece → Option (List Char)
  | [] => some []
  | .plain c :: rest => (chars? rest).map (c :: ·)
  | .unit high :: .unit low :: rest =>
      if 0xD800 ≤ high ∧ high < 0xDC00 then
        if 0xDC00 ≤ low ∧ low < 0xE000 then
          (chars? rest).map (Char.ofNat (0x10000 + (high - 0xD800) * 0x400 + (low - 0xDC00)) :: ·)
        else none
      else if 0xDC00 ≤ high ∧ high < 0xE000 then none
      else (chars? (.unit low :: rest)).map (Char.ofNat high :: ·)
  | .unit code :: rest =>
      if 0xD800 ≤ code ∧ code < 0xE000 then none
      else (chars? rest).map (Char.ofNat code :: ·)

namespace Token

def hexDigit? (c : Char) : Option Nat :=
  let code := c.toNat
  if 48 ≤ code ∧ code ≤ 57 then some (code - 48)
  else if 97 ≤ code ∧ code ≤ 102 then some (code - 87)
  else if 65 ≤ code ∧ code ≤ 70 then some (code - 55)
  else none

/-- The code of four hexadecimal digits. -/
def unit? (a b c d : Char) : Option Nat := do
  return 0x1000 * (← hexDigit? a) + 0x100 * (← hexDigit? b) + 0x10 * (← hexDigit? c) + (← hexDigit? d)

/-- The character of a one-letter escape. -/
def escape? : Char → Option Char
  | '"' => some '"'
  | '\\' => some '\\'
  | '/' => some '/'
  | 'b' => some '\x08'
  | 'f' => some '\x0c'
  | 'n' => some '\n'
  | 'r' => some '\r'
  | 't' => some '\t'
  | _ => none

/-- The pieces of a string behind its opening quote, and the text behind its closing quote. -/
def scanString? : List Char → Option (List Piece × List Char)
  | [] => none
  | '"' :: rest => some ([], rest)
  | '\\' :: 'u' :: a :: b :: c :: d :: rest =>
      match unit? a b c d, scanString? rest with
      | some code, some (pieces, rest) => some (.unit code :: pieces, rest)
      | _, _ => none
  | '\\' :: letter :: rest =>
      match escape? letter, scanString? rest with
      | some c, some (pieces, rest) => some (.plain c :: pieces, rest)
      | _, _ => none
  | c :: rest =>
      if c.toNat < 0x20 ∨ c = '\\' then none
      else
        match scanString? rest with
        | some (pieces, rest) => some (.plain c :: pieces, rest)
        | none => none

def isBlank (c : Char) : Bool := c = ' ' || c = '\t' || c = '\n' || c = '\r'

/-- The token at the beginning of a text that begins with no blank, and the rest. -/
def scan? : List Char → Option (Token × List Char)
  | '\x7b' :: rest => some (.openBrace, rest)
  | '\x7d' :: rest => some (.closeBrace, rest)
  | '[' :: rest => some (.openBracket, rest)
  | ']' :: rest => some (.closeBracket, rest)
  | ':' :: rest => some (.colon, rest)
  | ',' :: rest => some (.comma, rest)
  | 'n' :: 'u' :: 'l' :: 'l' :: rest => some (.null, rest)
  | 't' :: 'r' :: 'u' :: 'e' :: rest => some (.bool true, rest)
  | 'f' :: 'a' :: 'l' :: 's' :: 'e' :: rest => some (.bool false, rest)
  | '"' :: rest =>
      (scanString? rest).map fun (pieces, rest) =>
        (.string ((Piece.chars? pieces).map String.ofList), rest)
  | text => (Numeral.scan? text).map fun (numeral, rest) => (.number numeral, rest)

theorem length_lt_of_scanString? {text rest : List Char} {pieces : List Piece}
    (h : scanString? text = some (pieces, rest)) : rest.length < text.length := by
  fun_induction scanString? text generalizing pieces rest with
  | case1 => cases h
  | case2 => cases h; simp
  | case3 a b c d text code pieces' rest' hscan hunit ih =>
      cases h
      have := ih hscan
      simp only [List.length_cons]
      omega
  | case4 => cases h
  | case5 letter text _ c pieces' rest' hscan hescape ih =>
      cases h
      have := ih hscan
      simp only [List.length_cons]
      omega
  | case6 => cases h
  | case7 => cases h
  | case8 c text _ _ _ _ pieces' rest' hscan ih =>
      cases h
      have := ih hscan
      simp only [List.length_cons]
      omega
  | case9 => cases h

/-- A token takes at least one character off a text. -/
theorem length_lt_of_scan? {text rest : List Char} {token : Token}
    (h : scan? text = some (token, rest)) : rest.length < text.length := by
  unfold scan? at h
  split at h
  case h_10 =>
    obtain ⟨⟨pieces, rest'⟩, hscan, heq⟩ := Option.map_eq_some_iff.mp h
    cases heq
    have := length_lt_of_scanString? hscan
    simp only [List.length_cons]
    omega
  case h_11 =>
    obtain ⟨⟨numeral, rest'⟩, hscan, heq⟩ := Option.map_eq_some_iff.mp h
    cases heq
    exact Numeral.length_lt_of_scan? hscan
  all_goals
    cases h
    simp only [List.length_cons]
    omega

end Token

end DeferredTypes.Json
