import DeferredTypes.Json.Reader
import DeferredTypes.Json.Writer
import DeferredTypes.Proofs.Collections
import DeferredTypes.Proofs.NumeralText

/-! JSON values and their texts. The text of a value, in any layout that sets the tokens apart by blanks
only, reads back as the value. Each part of a text is shown to be read in front of any other text, so that
the machine, once it has taken the text of a value, is where a complete value leaves it. -/

namespace DeferredTypes.Json

/-! ### Strings -/

/-- A unit below the surrogates is a character by itself. -/
theorem Piece.chars?_unit {code : Nat} (hcode : code < 0xD800) (pieces : List Piece) :
    chars? (.unit code :: pieces) = (chars? pieces).map (Char.ofNat code :: ·) := by
  have hcharacter : ¬(0xD800 ≤ code ∧ code < 0xE000) := by omega
  cases pieces with
  | nil => exact if_neg hcharacter
  | cons piece pieces =>
      cases piece with
      | plain c => exact if_neg hcharacter
      | unit low => rw [chars?, if_neg (by omega), if_neg (by omega)]

namespace Token

theorem hexDigit?_hexChar : ∀ digit < 16, hexDigit? (hexChar digit) = some digit := by decide

variable (text : List Char)

theorem scanString?_escape {letter c : Char} (hescape : escape? letter = some c) :
    scanString? ('\\' :: letter :: text) =
      (scanString? text).map fun (pieces, rest) => (.plain c :: pieces, rest) := by
  rw [scanString?, hescape]
  · rcases scanString? text with _ | ⟨pieces, rest⟩ <;> rfl
  · rintro _ _ _ _ _ rfl -
    cases hescape

theorem scanString?_unit {code : Nat} (hcode : code < 0x100) :
    scanString? ('\\' :: 'u' :: '0' :: '0' :: hexChar (code / 16) :: hexChar (code % 16) :: text) =
      (scanString? text).map fun (pieces, rest) => (.unit code :: pieces, rest) := by
  have hunit : unit? '0' '0' (hexChar (code / 16)) (hexChar (code % 16)) = some code := by
    have hzero : hexDigit? '0' = some 0 := by decide
    have hcode' : 0x1000 * 0 + 0x100 * 0 + 0x10 * (code / 16) + code % 16 = code := by omega
    simp only [unit?, hzero, hexDigit?_hexChar (code / 16) (by omega),
      hexDigit?_hexChar (code % 16) (by omega), Option.bind_eq_bind, Option.bind_some, Option.pure_def, hcode']
  rw [scanString?, hunit]
  rcases scanString? text with _ | ⟨pieces, rest⟩ <;> rfl

theorem scanString?_plain {c : Char} (hquote : c ≠ '"') (hbackslash : c ≠ '\\') (hcontrol : ¬c.toNat < 0x20) :
    scanString? (c :: text) =
      (scanString? text).map fun (pieces, rest) => (.plain c :: pieces, rest) := by
  rw [scanString?, if_neg (not_or.mpr ⟨hcontrol, hbackslash⟩)]
  · rcases scanString? text with _ | ⟨pieces, rest⟩ <;> rfl
  · exact hquote
  · exact fun _ _ _ _ _ h _ => hbackslash h
  · exact fun _ _ h _ => hbackslash h

end Token

/-- A character within quotes is read as one piece, which stands for the character. -/
theorem exists_piece (c : Char) :
    ∃ piece : Piece,
      (∀ text, Token.scanString? (escapeChar c ++ text) =
        (Token.scanString? text).map fun (pieces, rest) => (piece :: pieces, rest)) ∧
      ∀ pieces, Piece.chars? (piece :: pieces) = (Piece.chars? pieces).map (c :: ·) := by
  have hescape : ∀ letter, escapeChar c = ['\\', letter] → Token.escape? letter = some c →
      ∀ text, Token.scanString? (escapeChar c ++ text) =
        (Token.scanString? text).map fun (pieces, rest) => (Piece.plain c :: pieces, rest) := by
    intro letter hletter hescape text
    rw [hletter]
    exact Token.scanString?_escape text hescape
  have hplain : ∀ pieces, Piece.chars? (.plain c :: pieces) = (Piece.chars? pieces).map (c :: ·) := fun _ => rfl
  -- The characters with an escape of their own, the other control characters, and all others.
  by_cases hnamed : c ∈ ['"', '\\', '\x08', '\x0c', '\n', '\r', '\t']
  · refine ⟨.plain c, ?_, hplain⟩
    simp only [List.mem_cons, List.not_mem_nil, or_false] at hnamed
    rcases hnamed with rfl | rfl | rfl | rfl | rfl | rfl | rfl
    · exact hescape '"' rfl rfl
    · exact hescape '\\' rfl rfl
    · exact hescape 'b' rfl rfl
    · exact hescape 'f' rfl rfl
    · exact hescape 'n' rfl rfl
    · exact hescape 'r' rfl rfl
    · exact hescape 't' rfl rfl
  · simp only [List.mem_cons, List.not_mem_nil, or_false, not_or] at hnamed
    obtain ⟨hquote, hbackslash, hb, hf, hn, hr, ht⟩ := hnamed
    by_cases hcontrol : c.toNat < 0x20
    · refine ⟨.unit c.toNat, fun text => ?_, fun pieces => ?_⟩
      · rw [escapeChar, if_neg hquote, if_neg hbackslash, if_neg hb, if_neg hf, if_neg hn, if_neg hr, if_neg ht,
          if_pos hcontrol]
        exact Token.scanString?_unit text (by omega)
      · rw [Piece.chars?_unit (by omega), Char.ofNat_toNat]
    · refine ⟨.plain c, fun text => ?_, hplain⟩
      rw [escapeChar, if_neg hquote, if_neg hbackslash, if_neg hb, if_neg hf, if_neg hn, if_neg hr, if_neg ht,
        if_neg hcontrol]
      exact Token.scanString?_plain text hquote hbackslash hcontrol

/-- Escaped characters are scanned up to the quote behind them, and stand for the characters. -/
theorem exists_pieces (chars rest : List Char) :
    ∃ pieces, Token.scanString? (chars.flatMap escapeChar ++ '"' :: rest) = some (pieces, rest) ∧
      Piece.chars? pieces = some chars := by
  induction chars with
  | nil => exact ⟨[], rfl, rfl⟩
  | cons c chars ih =>
      obtain ⟨pieces, hscan, hchars⟩ := ih
      obtain ⟨piece, hpiece, hchar⟩ := exists_piece c
      refine ⟨piece :: pieces, ?_, ?_⟩
      · rw [List.flatMap_cons, List.append_assoc, hpiece, hscan]
        rfl
      · rw [hchar, hchars]
        rfl

/-! ### Tokens -/

namespace Token

variable {rest : List Char}

theorem scan?_quote (text : String) (rest : List Char) :
    scan? ((quote text).toList ++ rest) = some (.string (some text), rest) := by
  obtain ⟨pieces, hscan, hchars⟩ := exists_pieces text.toList rest
  have hquote : (quote text).toList ++ rest = '"' :: (text.toList.flatMap escapeChar ++ '"' :: rest) := by
    simp [quote]
  rw [hquote, scan?, hscan, Option.map_some]
  dsimp only
  rw [hchars, Option.map_some, String.ofList_toList]

/-- A text that begins as a numeral does begins with no other token. -/
theorem scan?_of_begins {text : List Char} (htext : Numeral.Begins text) :
    scan? text = (Numeral.scan? text).map fun (numeral, rest) => (.number numeral, rest) := by
  obtain ⟨c, others, rfl, hc⟩ := htext
  unfold scan?
  split
  case h_11 => rfl
  all_goals
    rename_i heq
    obtain ⟨rfl, -⟩ := List.cons.inj heq
    exact absurd hc (by decide)

/-- A numeral is scanned as one token, unless what follows could be part of it. -/
theorem scan?_number {numeral : Numeral} (hnumeral : Digits.WellFormed numeral.whole)
    (hrest : Numeral.Stops rest) :
    scan? (numeral.text.toList ++ rest) = some (.number numeral, rest) := by
  rw [scan?_of_begins (Numeral.begins_text hnumeral.nonempty rest), Numeral.scan?_text hnumeral hrest]
  rfl

/-- The text begins with no blank. -/
def Visible (text : List Char) : Prop := ∃ c others, text = c :: others ∧ isBlank c = false

theorem visible_of_begins {text : List Char} (htext : Numeral.Begins text) : Visible text := by
  obtain ⟨c, others, rfl, hc⟩ := htext
  refine ⟨c, others, rfl, Bool.eq_false_iff.mpr fun hblank => ?_⟩
  simp only [isBlank, Bool.or_eq_true, decide_eq_true_eq] at hblank
  rcases hblank with ((rfl | rfl) | rfl) | rfl <;> exact absurd hc (by decide)

theorem visible_quote (text : String) (rest : List Char) : Visible ((quote text).toList ++ rest) := by
  refine ⟨'"', text.toList.flatMap escapeChar ++ '"' :: rest, ?_, rfl⟩
  simp [quote]

end Token

/-! ### The machine -/

namespace State

variable {state next : State} {text rest : List Char}

theorem run_blanks {blanks : List Char} (hblanks : ∀ c ∈ blanks, Token.isBlank c = true) (state : State)
    (text : List Char) : run state (blanks ++ text) = run state text := by
  have hskip : (blanks ++ text).dropWhile Token.isBlank = text.dropWhile Token.isBlank :=
    List.dropWhile_append_of_pos hblanks
  rw [run.eq_def, run.eq_def state text, hskip]

theorem run_token {token : Token} (htext : Token.Visible text) (hscan : Token.scan? text = some (token, rest))
    (hstep : state.step token = some next) : run state text = run next rest := by
  obtain ⟨c, others, rfl, hc⟩ := htext
  have hskip : (c :: others).dropWhile Token.isBlank = c :: others := List.dropWhile_cons_of_neg (by simp [hc])
  rw [run.eq_def, hskip]
  dsimp only
  rw [hscan]
  dsimp only
  rw [hstep]

/-- The machine takes a value next, within these arrays and objects. At the beginning of an array it may
also take the bracket that closes it, which begins no value. -/
def Expects (state : State) (stack : List Frame) : Prop :=
  ∀ token, token ≠ .closeBracket → state.step token = beginValue stack token

theorem expects_wantValue (stack : List Frame) : (wantValue stack).Expects stack := fun _ _ => rfl

theorem expects_wantItemOrEnd (stack : List Frame) : (wantItemOrEnd stack).Expects (.items [] :: stack) := by
  intro token htoken
  cases token with
  | closeBracket => exact absurd rfl htoken
  | openBrace | closeBrace | openBracket | colon | comma | null | bool _ | number _ | string _ => rfl

end State

/-! ### Values -/

/-- Between the tokens there are blanks only, apart from the colon. -/
structure Layout.SetsApart (layout : Layout) : Prop where
  newline : ∀ depth, ∀ c ∈ (layout.newline depth).toList, Token.isBlank c = true
  colon : ∃ blanks, layout.colon.toList = ':' :: blanks ∧ ∀ c ∈ blanks, Token.isBlank c = true

theorem Layout.setsApart_compact : compact.SetsApart where
  newline _ := nofun
  colon := ⟨[], rfl, nofun⟩

theorem Layout.setsApart_pretty : pretty.SetsApart where
  newline depth := by
    intro c hc
    simp only [pretty, String.toList_append, String.toList_ofList, List.mem_append, List.mem_replicate] at hc
    rcases hc with hc | ⟨-, rfl⟩
    · obtain rfl := List.mem_singleton.mp hc
      rfl
    · rfl
  colon := ⟨[' '], rfl, fun c hc => by rw [List.mem_singleton.mp hc]; rfl⟩

namespace Value

mutual

/-- The value has a text of its own: no part of it is unreadable, and its numbers are written as numbers
must be. -/
def Printable : Value → Prop
  | .null | .bool _ | .string _ => True
  | .number numeral => Digits.WellFormed numeral.whole
  | .array items => PrintableItems items
  | .object fields => PrintableFields fields
  | .unreadable => False

def PrintableItems : List Value → Prop
  | [] => True
  | item :: rest => Printable item ∧ PrintableItems rest

def PrintableFields : List (String × Value) → Prop
  | [] => True
  | (_, value) :: rest => Printable value ∧ PrintableFields rest

end

theorem printableFields_of_forall {fields : List (String × Value)}
    (hfields : ∀ field ∈ fields, field.2.Printable) : PrintableFields fields := by
  induction fields with
  | nil => trivial
  | cons field rest ih =>
      exact ⟨hfields field List.mem_cons_self,
        ih fun other hother => hfields other (List.mem_cons_of_mem _ hother)⟩

theorem ofFields_map (fields : List (String × Value)) :
    ofFields (fields.map fun field => (some field.1, field.2)) = .object fields := by
  rw [ofFields, mapM_map_eq_some]
  intro field _
  rfl

end Value

namespace State

variable {layout : Layout} (hlayout : layout.SetsApart)

/-- Behind a value there is a comma, or blanks and a bracket that closes. -/
theorem stops_blanks {blanks : List Char} (hblanks : ∀ c ∈ blanks, Token.isBlank c = true) {text : List Char}
    (htext : Numeral.Stops text) : Numeral.Stops (blanks ++ text) := by
  cases blanks with
  | nil => exact htext
  | cons blank blanks =>
      rintro c ⟨⟩
      have hblank := hblanks blank List.mem_cons_self
      simp only [Token.isBlank, Bool.or_eq_true, decide_eq_true_eq] at hblank
      rcases hblank with ((rfl | rfl) | rfl) | rfl <;> decide

theorem stops_cons {c : Char} (hc : c = ',' ∨ c = ']' ∨ c = '\x7d') (rest : List Char) :
    Numeral.Stops (c :: rest) := by
  rintro _ ⟨⟩
  rcases hc with rfl | rfl | rfl <;> decide

include hlayout

theorem stops_writeItems (items : List Value) (depth outer : Nat) (rest : List Char) :
    Numeral.Stops ((Value.writeItems layout depth items).toList ++
      ((layout.newline outer).toList ++ ']' :: rest)) := by
  cases items with
  | nil =>
      rw [Value.writeItems]
      exact stops_blanks (hlayout.newline outer) (stops_cons (Or.inr (Or.inl rfl)) rest)
  | cons item items =>
      rw [Value.writeItems]
      simp only [String.toList_append, List.append_assoc]
      exact stops_cons (Or.inl rfl) _

theorem stops_writeFields (fields : List (String × Value)) (depth outer : Nat) (rest : List Char) :
    Numeral.Stops ((Value.writeFields layout depth fields).toList ++
      ((layout.newline outer).toList ++ '\x7d' :: rest)) := by
  cases fields with
  | nil =>
      rw [Value.writeFields]
      exact stops_blanks (hlayout.newline outer) (stops_cons (Or.inr (Or.inr rfl)) rest)
  | cons field fields =>
      rw [Value.writeFields]
      simp only [String.toList_append, List.append_assoc]
      exact stops_cons (Or.inl rfl) _

theorem run_newline (state : State) (depth : Nat) (text : List Char) :
    run state ((layout.newline depth).toList ++ text) = run state text :=
  run_blanks (hlayout.newline depth) state text

/-- A name and the colon behind it. -/
theorem run_name {state : State} {stack : List Frame} {done : List (Option String × Value)}
    (hstate : ∀ name, state.step (.string name) = some (.wantColon stack done name)) (name : String)
    (text : List Char) :
    run state ((quote name).toList ++ (layout.colon.toList ++ text)) =
      run (.wantValue (.fields done (some name) :: stack)) text := by
  obtain ⟨blanks, hcolon, hblanks⟩ := hlayout.colon
  rw [run_token (Token.visible_quote name _) (Token.scan?_quote name _) (hstate (some name)), hcolon,
    List.cons_append, run_token ⟨':', _, rfl, rfl⟩ rfl rfl, run_blanks hblanks]

mutual

/-- The text of a value takes the machine to where a complete value leaves it. -/
theorem run_write : (value : Value) → value.Printable → ∀ (state : State) (stack : List Frame) (depth : Nat)
    (rest : List Char), state.Expects stack → Numeral.Stops rest →
      run state ((value.write layout depth).toList ++ rest) = run (.complete stack value) rest
  | .null, _ => by
      intro state stack depth rest hstate _
      rw [Value.write]
      exact run_token ⟨'n', _, rfl, rfl⟩ rfl (hstate .null nofun)
  | .bool true, _ => by
      intro state stack depth rest hstate _
      rw [Value.write]
      exact run_token ⟨'t', _, rfl, rfl⟩ rfl (hstate (.bool true) nofun)
  | .bool false, _ => by
      intro state stack depth rest hstate _
      rw [Value.write]
      exact run_token ⟨'f', _, rfl, rfl⟩ rfl (hstate (.bool false) nofun)
  | .number numeral, hvalue => by
      intro state stack depth rest hstate hrest
      have hnumeral : Digits.WellFormed numeral.whole := hvalue
      rw [Value.write]
      exact run_token (Token.visible_of_begins (Numeral.begins_text hnumeral.nonempty rest))
        (Token.scan?_number hnumeral hrest) (hstate (.number numeral) nofun)
  | .string value, _ => by
      intro state stack depth rest hstate _
      rw [Value.write]
      exact run_token (Token.visible_quote value rest) (Token.scan?_quote value rest)
        (hstate (.string (some value)) nofun)
  | .array [], _ => by
      intro state stack depth rest hstate _
      rw [Value.write]
      change run state ('[' :: ']' :: rest) = _
      rw [run_token ⟨'[', _, rfl, rfl⟩ rfl (hstate .openBracket nofun), run_token ⟨']', _, rfl, rfl⟩ rfl rfl]
  | .array (item :: items), hvalue => by
      intro state stack depth rest hstate _
      have hopen : "[".toList = ['['] := rfl
      have hclose : "]".toList = [']'] := rfl
      rw [Value.write]
      simp only [String.toList_append, hopen, hclose, List.append_assoc, List.cons_append, List.nil_append]
      rw [run_token ⟨'[', _, rfl, rfl⟩ rfl (hstate .openBracket nofun), run_newline hlayout,
        run_write item hvalue.1 _ _ _ _ (expects_wantItemOrEnd stack) (stops_writeItems hlayout items _ _ rest)]
      exact run_writeItems items hvalue.2 stack [] item (depth + 1) depth rest
  | .object [], _ => by
      intro state stack depth rest hstate _
      rw [Value.write]
      change run state ('\x7b' :: '\x7d' :: rest) = _
      rw [run_token ⟨'\x7b', _, rfl, rfl⟩ rfl (hstate .openBrace nofun), run_token ⟨'\x7d', _, rfl, rfl⟩ rfl rfl]
  | .object ((name, value) :: fields), hvalue => by
      intro state stack depth rest hstate _
      have hopen : "\x7b".toList = ['\x7b'] := rfl
      have hclose : "\x7d".toList = ['\x7d'] := rfl
      rw [Value.write]
      simp only [String.toList_append, hopen, hclose, List.append_assoc, List.cons_append, List.nil_append]
      rw [run_token ⟨'\x7b', _, rfl, rfl⟩ rfl (hstate .openBrace nofun), run_newline hlayout,
        run_name hlayout (fun _ => rfl) name,
        run_write value hvalue.1 _ _ _ _ (expects_wantValue _) (stops_writeFields hlayout fields _ _ rest)]
      refine (run_writeFields fields hvalue.2 stack [] (some name) value (depth + 1) depth rest).trans ?_
      exact congrArg (fun value => run (.complete stack value) rest) (Value.ofFields_map ((name, value) :: fields))
  | .unreadable, hvalue => hvalue.elim

/-- The items behind the first are read back, with the bracket that closes the array. -/
theorem run_writeItems : (items : List Value) → Value.PrintableItems items →
    ∀ (stack : List Frame) (done : List Value) (value : Value) (depth outer : Nat) (rest : List Char),
      run (.complete (.items done :: stack) value) ((Value.writeItems layout depth items).toList ++
        ((layout.newline outer).toList ++ ']' :: rest)) =
      run (.complete stack (.array (done.reverse ++ value :: items))) rest
  | [], _ => by
      intro stack done value depth outer rest
      rw [Value.writeItems, String.toList_empty, List.nil_append, run_newline hlayout,
        run_token ⟨']', _, rfl, rfl⟩ rfl rfl, List.reverse_cons]
  | item :: items, hitems => by
      intro stack done value depth outer rest
      have hcomma : ",".toList = [','] := rfl
      rw [Value.writeItems]
      simp only [String.toList_append, hcomma, List.append_assoc, List.cons_append, List.nil_append]
      rw [run_token ⟨',', _, rfl, rfl⟩ rfl rfl, run_newline hlayout,
        run_write item hitems.1 _ _ _ _ (expects_wantValue _) (stops_writeItems hlayout items _ _ rest),
        run_writeItems items hitems.2, List.reverse_cons, List.append_assoc]
      rfl

/-- The fields behind the first are read back, with the brace that closes the object. -/
theorem run_writeFields : (fields : List (String × Value)) → Value.PrintableFields fields →
    ∀ (stack : List Frame) (done : List (Option String × Value)) (name : Option String) (value : Value)
      (depth outer : Nat) (rest : List Char),
      run (.complete (.fields done name :: stack) value) ((Value.writeFields layout depth fields).toList ++
        ((layout.newline outer).toList ++ '\x7d' :: rest)) =
      run (.complete stack (.ofFields
        (done.reverse ++ (name, value) :: fields.map fun field => (some field.1, field.2)))) rest
  | [], _ => by
      intro stack done name value depth outer rest
      rw [Value.writeFields, String.toList_empty, List.nil_append, run_newline hlayout,
        run_token ⟨'\x7d', _, rfl, rfl⟩ rfl rfl, List.reverse_cons]
      rfl
  | (next, item) :: fields, hfields => by
      intro stack done name value depth outer rest
      have hcomma : ",".toList = [','] := rfl
      rw [Value.writeFields]
      simp only [String.toList_append, hcomma, List.append_assoc, List.cons_append, List.nil_append]
      rw [run_token ⟨',', _, rfl, rfl⟩ rfl rfl, run_newline hlayout, run_name hlayout (fun _ => rfl) next,
        run_write item hfields.1 _ _ _ _ (expects_wantValue _) (stops_writeFields hlayout fields _ _ rest),
        run_writeFields fields hfields.2, List.reverse_cons, List.append_assoc]
      rfl

end

end State

/-- The text of a value reads back as the value, also if there are blanks behind it. -/
theorem Value.ofText?_text_append {layout : Layout} (hlayout : layout.SetsApart) {value : Value}
    (hvalue : value.Printable) (blanks : String) (hblanks : ∀ c ∈ blanks.toList, Token.isBlank c = true) :
    ofText? (value.text layout ++ blanks) = some value := by
  have hstops : Numeral.Stops (blanks.toList ++ []) := State.stops_blanks hblanks nofun
  have hrun := State.run_write hlayout value hvalue _ _ 0 _ (State.expects_wantValue []) hstops
  rw [State.run_blanks hblanks, List.append_nil] at hrun
  rw [ofText?, text, String.toList_append, hrun, State.run.eq_def]
  rfl

/-- A value is read back from its text, in every layout that keeps the tokens apart. -/
theorem Value.ofText?_text {layout : Layout} (hlayout : layout.SetsApart) {value : Value}
    (hvalue : value.Printable) : ofText? (value.text layout) = some value := by
  have hread := ofText?_text_append hlayout hvalue "" nofun
  rwa [String.append_empty] at hread

end DeferredTypes.Json
