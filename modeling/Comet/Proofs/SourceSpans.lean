import Comet.Proofs.LiteralPooling
import Comet.Proofs.Safety

/-!
# Where names stand in the source

Tokens remember the columns that they were cut from, and whatever is read from a token keeps its
columns. `Span.Covers` says that a text stands at a span of a line, between whole characters.
Tokens stand at their spans (`standsIn_of_mem_scan`), each behind the one before it
(`pairwise_start_of_scanFrom`), and the names and literals of a record are those of different
tokens of its line, in the same order (`mentions_sublist_of_statement`).
-/

namespace Comet

theorem Text.utf8ByteSize_eq (source : String) :
    source.utf8ByteSize = byteLength source.toList := by
  rw [← utf8ByteSize_ofList, String.ofList_toList]

namespace Span

/-- The text stands at the span of the line. -/
def Covers (span : Span) (source : String) (text : List Char) : Prop :=
  ∃ before after, source.toList = before ++ (text ++ after) ∧
    span = .ofText (Text.byteLength before) text

namespace Covers

variable {span : Span} {source : String} {text : List Char}

theorem start_le_stop (h : span.Covers source text) : span.start ≤ span.stop := by
  obtain ⟨before, after, -, rfl⟩ := h
  exact Nat.le_add_right _ _

theorem isValid_start (h : span.Covers source text) :
    String.Pos.Raw.IsValid source ⟨span.start⟩ := by
  obtain ⟨before, after, hsource, rfl⟩ := h
  exact Text.isValid_of_append hsource

theorem isValid_stop (h : span.Covers source text) :
    String.Pos.Raw.IsValid source ⟨span.stop⟩ := by
  obtain ⟨before, after, hsource, rfl⟩ := h
  rw [← List.append_assoc] at hsource
  have hvalid := Text.isValid_of_append hsource
  rwa [Text.byteLength_append] at hvalid

theorem stop_le (h : span.Covers source text) : span.stop ≤ source.utf8ByteSize := by
  obtain ⟨before, after, hsource, rfl⟩ := h
  rw [Text.utf8ByteSize_eq, hsource, ← List.append_assoc, Text.byteLength_append,
    Text.byteLength_append]
  exact Nat.le_add_right _ _

/-- The bytes of the span are those of the text. -/
theorem extract_eq (h : span.Covers source text) :
    source.toByteArray.extract span.start span.stop = (String.ofList text).toByteArray := by
  obtain ⟨before, after, hsource, rfl⟩ := h
  have hbytes : source.toByteArray = ((String.ofList before).toByteArray ++
      (String.ofList text).toByteArray) ++ (String.ofList after).toByteArray := by
    rw [← String.toByteArray_append, ← String.toByteArray_append, ← String.ofList_append,
      ← String.ofList_append, List.append_assoc, ← hsource, String.ofList_toList]
  have hsize (cs : List Char) : (String.ofList cs).toByteArray.size = Text.byteLength cs := by
    rw [String.size_toByteArray, Text.utf8ByteSize_ofList]
  rw [hbytes, ofText, ← hsize before, ← hsize text, ← ByteArray.size_append,
    ByteArray.extract_append_size_left]
  exact ByteArray.extract_append_eq_right rfl ByteArray.size_append

/-- What follows the beginning of a span stands up to the end of the line. -/
theorem toLineEnd (h : span.Covers source text) :
    ∃ rest, (Span.toLineEnd span.start (Text.byteLength source.toList)).Covers source rest := by
  obtain ⟨before, after, hsource, rfl⟩ := h
  refine ⟨text ++ after, before, [], by rw [List.append_nil, hsource], ?_⟩
  rw [hsource, Text.byteLength_append, Span.toLineEnd, ofText, ofText]
  simp

theorem ofLineEnd (source : String) :
    (Span.ofText (Text.byteLength source.toList) []).Covers source [] :=
  ⟨source.toList, [], by simp, rfl⟩

end Covers

end Span

/-! ## Tokens -/

namespace Token

variable {gr8 : Bool} {number column : Nat} {source : String} {cs : List Char}
  {tokens : List Token}

/-- The token stands at its span. -/
def StandsIn (source : String) (token : Token) : Prop :=
  token.span.Covers source token.text.toList

theorem standsIn_of_mem_scan (h : scan gr8 number source = .ok tokens) :
    ∀ token ∈ tokens, token.StandsIn source := by
  intro token htoken
  obtain ⟨rest, hvisits, hspan⟩ := exists_visits_of_mem (scan_eq_ok_iff.1 h) htoken
  obtain ⟨before, hsource, hstart⟩ := hvisits.exists_before
  refine ⟨before, rest, hsource, ?_⟩
  rw [hspan, hstart, Nat.zero_add]

theorem Lexeme.Splits.byteLength_pos {l : Lexeme} (h : l.Splits cs) :
    0 < Text.byteLength l.text := by
  obtain ⟨c, text, htext⟩ := List.exists_cons_of_ne_nil h.2
  have hpos := c.utf8Size_pos
  rw [htext, Text.byteLength_cons]
  omega

/-- Every token begins behind the one before it. -/
theorem pairwise_start_of_scanFrom (h : scanFrom gr8 number column cs = .ok tokens) :
    tokens.Pairwise fun a b => a.span.start < b.span.start := by
  fun_induction scanFrom gr8 number column cs generalizing tokens with
  | case1 column cs hempty =>
    cases h
    exact List.pairwise_singleton _ _
  | case2 => cases h
  | case3 column cs hempty l hl ih =>
    obtain ⟨tokens, hscan, rfl⟩ := Traversal.bind_pure_eq_ok.1 h
    refine List.pairwise_cons.2 ⟨?_, ih hscan⟩
    intro token htoken
    obtain ⟨rest, hvisits, -⟩ := exists_visits_of_mem hscan htoken
    obtain ⟨before, -, hstart⟩ := hvisits.exists_before
    have hpos := (Lexeme.splits_of_first? hl).byteLength_pos
    rw [hstart, ofText, Span.ofText]
    dsimp only
    omega

theorem getLast?_of_scanFrom (h : scanFrom gr8 number column cs = .ok tokens) :
    tokens.getLast? = some (atLineEnd number (column + Text.byteLength cs)) := by
  fun_induction scanFrom gr8 number column cs generalizing tokens with
  | case1 column cs hempty =>
    cases h
    rw [List.isEmpty_iff.1 hempty]
    rfl
  | case2 => cases h
  | case3 column cs hempty l hl ih =>
    obtain ⟨tokens, hscan, rfl⟩ := Traversal.bind_pure_eq_ok.1 h
    rw [List.getLast?_cons, ih hscan, ← (Lexeme.splits_of_first? hl).1, Text.byteLength_append,
      Nat.add_assoc]
    rfl

end Token

/-- The line of scanned tokens ends where its text does. -/
theorem Statement.Line.stop_ofTokens {gr8 : Bool} {number : Nat} {source : String}
    {tokens : List Token} (h : Token.scan gr8 number source = .ok tokens) :
    (Line.ofTokens number tokens).stop = Text.byteLength source.toList := by
  rw [ofTokens, Token.getLast?_of_scanFrom (Token.scan_eq_ok_iff.1 h), Nat.zero_add]
  simp [Token.atLineEnd, Token.ofText, Span.ofText]

/-! ## Names and literals -/

/-- A text with its columns. -/
abbrev Mention := String × Span

/-- The name or literal that an operand is, with its columns. -/
def Operand.mention? : Operand → Option Mention
  | resolved _ => none
  | symbol name span => some (name, span)
  | literal l span => some (l.text, span)

/-- The names and literals of a body, in order. A start has no operands but its entry. -/
def Body.mentions (b : Body) : List Mention :=
  (b.operands ++ b.target?.toList).filterMap Operand.mention?

namespace Token

/-- The text of a token with its columns. -/
def mention (token : Token) : Mention := (token.text, token.span)

theorem WritesAddress.mentions_sublist {token : Token} {adr : Operand}
    (h : token.WritesAddress adr) :
    ([adr].filterMap Operand.mention?).Sublist [token.mention] := by
  cases h with
  | number => exact List.nil_sublist _
  | symbol => exact .refl _
  | literal => exact .refl _

theorem WritesData.mentions_sublist {token : Token} {words : List Operand}
    (h : token.WritesData words) :
    (words.filterMap Operand.mention?).Sublist [token.mention] := by
  cases h with
  | @constant form values =>
    have hnone : (values.map Operand.resolved).filterMap Operand.mention? = [] := by
      simp [List.filterMap_map, Function.comp_def, Operand.mention?]
    rw [hnone]
    exact List.nil_sublist _
  | symbol => exact .refl _

end Token

namespace Statement

theorem IsConstantList.mentions_sublist {tokens : List Token} {words : List Operand}
    (h : IsConstantList tokens words) :
    (words.filterMap Operand.mention?).Sublist (tokens.map Token.mention) := by
  induction h with
  | last data => exact data.mentions_sublist
  | more data _ _ ih =>
    rw [List.filterMap_append]
    exact data.mentions_sublist.append (ih.cons _)

/-- The operands of an instruction mention what their tokens are, in the same order. -/
theorem IsOperandList.mentions_sublist {m : Mnemonic} {tokens : List Token} {operands : Operands}
    (h : IsOperandList m tokens operands) :
    (operands.toList.filterMap Operand.mention?).Sublist (tokens.map Token.mention) := by
  cases h with
  | none | noEntry | register | registers | wordCount => exact List.nil_sublist _
  | address _ _ address =>
    exact (address.mentions_sublist.trans (List.sublist_append_left [_] _)).cons _
  | registerAddress _ _ _ _ address =>
    refine .cons _ (.cons _ (.cons _ ?_))
    exact address.mentions_sublist.trans (List.sublist_append_left [_] _)
  | @buffer _ _ _ _ buffer length _ _ address _ address' =>
    have hsplit : (Operands.buffer buffer length).toList = [buffer] ++ [length] := rfl
    rw [hsplit, List.filterMap_append]
    exact (address.mentions_sublist.append (address'.mentions_sublist.cons _)).cons _
  | entry => exact (List.Sublist.refl _).cons _
  | constants _ _ constants => exact constants.mentions_sublist.cons _

theorem mentions_data (words : List Operand) :
    (words.map Body.data).flatMap Body.mentions = words.filterMap Operand.mention? := by
  induction words with
  | nil => rfl
  | cons word words ih =>
    rw [List.map_cons, List.flatMap_cons, ih, ← List.singleton_append, List.filterMap_append]
    rfl

/-- What the records of a statement mention are its operands. -/
theorem HasBodies.mentions_eq {m : Mnemonic} {operands : Operands} {bodies : List Body}
    (h : HasBodies m operands bodies) :
    bodies.flatMap Body.mentions = operands.toList.filterMap Operand.mention? := by
  cases h with
  | @fillers count =>
    refine List.flatMap_eq_nil_iff.2 fun b hb => ?_
    rw [List.eq_of_mem_replicate hb]
    rfl
  | data => exact mentions_data _
  | _ => exact List.flatMap_singleton _ _

theorem mentions_recordsOf (s : Statement) (number : Nat) (tokens : List Token)
    (bodies : List Body) :
    (s.recordsOf number tokens bodies).flatMap (·.body.mentions) =
      bodies.flatMap Body.mentions := by
  cases bodies with
  | nil => rfl
  | cons body bodies => simp [recordsOf, List.flatMap_map]

variable {gr8 : Bool} {number : Nat} {source : String} {tokens rest : List Token}
  {s : Statement} {bodies : List Body}

/-- The records of a statement mention what tokens of their line are, in the same order. -/
theorem mentions_sublist_of_statement (hspelled : AllSpelled gr8 tokens)
    (hs : (Line.ofTokens number tokens).statement tokens = .ok (s, rest))
    (hbodies : HasBodies s.mnemonic s.operands bodies) :
    ((s.recordsOf number tokens bodies).flatMap (·.body.mentions)).Sublist
      (tokens.map Token.mention) := by
  obtain ⟨head, token, operandTokens, htokens, -, -, -, hoperands, -⟩ :=
    (Line.ofTokens number tokens).exists_parts hspelled hs
  rw [mentions_recordsOf, hbodies.mentions_eq, htokens]
  refine hoperands.mentions_sublist.trans (List.Sublist.map _ ?_)
  refine List.Sublist.trans ?_ (List.sublist_append_right head _)
  exact (List.sublist_append_left operandTokens rest).cons token

/-- The label of a statement is the first token of its line. -/
theorem labelSpan_of_statement (hspelled : AllSpelled gr8 tokens)
    (hs : (Line.ofTokens number tokens).statement tokens = .ok (s, rest)) {r : Record}
    (hr : r ∈ s.recordsOf number tokens bodies) {name : String} (hname : r.label = some name) :
    ∃ token ∈ tokens, token.mention = (name, r.labelSpan) := by
  obtain ⟨head, token, operandTokens, htokens, hhead, -⟩ :=
    (Line.ofTokens number tokens).exists_parts hspelled hs
  have hfirst : r.label = s.label ∧ r.tokens = tokens := by
    cases bodies with
    | nil => cases hr
    | cons body bodies =>
      rcases List.mem_cons.1 hr with rfl | hr
      · exact ⟨rfl, rfl⟩
      · obtain ⟨body, -, rfl⟩ := List.mem_map.1 hr
        cases hname
  rw [hfirst.1] at hname
  rw [hname] at hhead
  cases hhead with
  | @label first space =>
    refine ⟨first, by simp [htokens], ?_⟩
    rw [Record.labelSpan, hfirst.2, htokens, List.cons_append, hfirst.1, hname]
    exact Prod.ext rfl (if_pos rfl).symm

end Statement

/-! ## Records -/

/-- The label, the names and the literals of a record stand where it says. -/
structure Record.IsAnchored (source : String) (r : Record) : Prop where
  label : ∀ name, r.label = some name → r.labelSpan.Covers source name.toList
  mentions : ∀ m ∈ r.body.mentions, m.2.Covers source m.1.toList

namespace Assembly

variable {gr8 : Bool} {number : Nat} {source : String} {lines : List String}
  {reading : Statement.Reading}

/-- Either a line gives no records, or they are those of a statement. -/
theorem statement_of_readLine (h : readLine gr8 number source = .ok reading) :
    reading.records = [] ∨ ∃ tokens s rest bodies, Token.scan gr8 number source = .ok tokens ∧
      (Statement.Line.ofTokens number tokens).statement tokens = .ok (s, rest) ∧
      Statement.HasBodies s.mnemonic s.operands bodies ∧
      reading.records = s.recordsOf number tokens bodies := by
  rw [readLine_eq, readNonblank] at h
  split at h
  · cases h
    exact .inl rfl
  · rename_i tokens hscan
    rcases Statement.read_cases (Token.spelled_of_scan hscan) h with
      ⟨-, rfl⟩ | ⟨d, -, rfl⟩ | ⟨-, s, rest, bodies, hs, -, -, hbodies, rfl⟩
    · exact .inl rfl
    · exact .inl rfl
    · exact .inr ⟨tokens, s, rest, bodies, hscan, hs, hbodies, rfl⟩

theorem isAnchored_of_readLine (h : readLine gr8 number source = .ok reading) :
    ∀ r ∈ reading.records, r.IsAnchored source := by
  intro r hr
  rcases statement_of_readLine h with hnil | ⟨tokens, s, rest, bodies, hscan, hs, hbodies, heq⟩
  · rw [hnil] at hr
    cases hr
  rw [heq] at hr
  have hspelled := Token.spelled_of_scan hscan
  have hstands := Token.standsIn_of_mem_scan hscan
  constructor
  · intro name hname
    obtain ⟨token, htoken, hmention⟩ := Statement.labelSpan_of_statement hspelled hs hr hname
    obtain ⟨rfl, hspan⟩ := Prod.mk.inj hmention
    rw [← hspan]
    exact hstands token htoken
  · intro m hm
    have hmem := (Statement.mentions_sublist_of_statement hspelled hs hbodies).subset
      (List.mem_flatMap.2 ⟨r, hr, hm⟩)
    obtain ⟨token, htoken, rfl⟩ := List.mem_map.1 hmem
    exact hstands token htoken

/-- The names and literals of a line stand at different columns. -/
theorem nodup_mentions_of_readLine (h : readLine gr8 number source = .ok reading) :
    ((reading.records.flatMap (·.body.mentions)).map Prod.snd).Nodup := by
  rcases statement_of_readLine h with hnil | ⟨tokens, s, rest, bodies, hscan, hs, hbodies, heq⟩
  · rw [hnil]
    exact .nil
  -- Tokens that begin at different columns have different spans.
  have hspans : (tokens.map (·.span)).Nodup := by
    have hstarts := Token.pairwise_start_of_scanFrom (Token.scan_eq_ok_iff.1 hscan)
    refine List.pairwise_map.2 (hstarts.imp ?_)
    intro a b hlt heq
    rw [heq] at hlt
    exact absurd hlt (Nat.lt_irrefl _)
  have hsublist := (Statement.mentions_sublist_of_statement (Token.spelled_of_scan hscan) hs
    hbodies).map Prod.snd
  rw [List.map_map] at hsublist
  rw [heq]
  exact hspans.sublist hsublist

/-- The record comes from a line of the source, and what it mentions stands there. -/
theorem isAnchored_of_readLines (h : readLines gr8 lines = .ok reading) {r : Record}
    (hr : r ∈ reading.records) : ∃ source, lines[r.line]? = some source ∧ r.IsAnchored source := by
  obtain ⟨readings, hreadings, rfl⟩ := Traversal.bind_pure_eq_ok.1 h
  obtain ⟨lineReading, hmem, hr⟩ := List.mem_flatMap.1 hr
  obtain ⟨p, hp, hread⟩ := Traversal.exists_of_mem_mapM hreadings hmem
  refine ⟨p.1, ?_, isAnchored_of_readLine hread r hr⟩
  rw [line_of_readLine hread hr]
  exact List.mem_zipIdx_iff_getElem?.1 hp

end Assembly

end Comet
