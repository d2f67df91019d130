import Clyde.CodexStore.RolloutStream

/-!
# Skipped compactions and the windows of later messages

Passing over a large compacted line keeps it out of the history, so a marked part of a later message
is resolved against the items that an older compaction replaced.

A skipped line that decodes is a compacted envelope if the lines have their time, type and payload
in this order (`compacted_of_isSkipped`). The window matters only to a message of an assistant with
a marked part that has no framed transcript (`Asks`).
-/

set_option autoImplicit false

namespace Clyde.CodexStore

open Foundation ByteCodec Text Json ReorientTag List
open Option hiding or_assoc

/-! ### Lines -/

def isSkipped (raw : Bytes) : Bool := isLargeCompacted (raw.take streamPeekPrefixBytes)

def keptLines (lines : List Bytes) : List Bytes := lines.filter fun raw ↦ ¬isSkipped raw

theorem ne_of_not_mem {stop : UInt8} {front : Bytes} (hfront : stop ∉ front) :
    ∀ byte ∈ front, decide (byte ≠ stop) = true := fun _ hbyte ↦
  decide_eq_true (ne_of_mem_of_not_mem hbyte hfront)

theorem takeWhile_ne_append {stop : UInt8} {front : Bytes} (hfront : stop ∉ front) (more : Bytes) :
    ((front ++ stop :: more).takeWhile fun byte ↦ byte ≠ stop) = front := by
  rw [takeWhile_append_of_pos (ne_of_not_mem hfront)]
  simp

variable {rest : Bytes}

theorem readLine_of_not_mem (hrest : 0x0A ∉ rest) : readLine rest = (rest, none) := by
  rw [readLine, span_eq_takeWhile_dropWhile, takeWhile_eq_self_iff.mpr (ne_of_not_mem hrest),
    dropWhile_eq_nil_iff.mpr (ne_of_not_mem hrest)]

variable {line : Bytes}

theorem readLine_line (hline : 0x0A ∉ line) (after : Bytes) :
    readLine (line ++ 0x0A :: after) = (line ++ [0x0A], some after) := by
  rw [readLine, span_eq_takeWhile_dropWhile, takeWhile_ne_append hline,
    dropWhile_append_of_pos (ne_of_not_mem hline)]
  simp

theorem rawLines_of_not_mem (hrest : 0x0A ∉ rest) : rawLines rest = [rest] := by
  rw [rawLines, LineFile.wholeLines, LineFile.unfinished,
    LineFile.splitLines_of_not_mem hrest, nil_append]

theorem rawLines_line (hline : 0x0A ∉ line) (after : Bytes) :
    rawLines (line ++ 0x0A :: after) = (line ++ [0x0A]) :: rawLines after := by
  rw [rawLines, LineFile.wholeLines, LineFile.unfinished, LineFile.splitLines_line hline]
  rfl

/-- Peeking at the first bytes of a line decides as peeking at the whole line does. -/
theorem isLargeCompacted_line (after : Bytes) :
    isLargeCompacted ((line ++ 0x0A :: after).take streamPeekPrefixBytes) =
      isSkipped (line ++ [0x0A]) := by
  rw [isSkipped]
  by_cases hlong : streamPeekPrefixBytes ≤ line.length
  · -- Only bytes of the line are peeked.
    rw [take_append_of_le_length hlong, take_append_of_le_length hlong]
  · -- The line end is among the bytes that are peeked.
    have hshort (back : Bytes) :
        isLargeCompacted ((line ++ 0x0A :: back).take streamPeekPrefixBytes) = false := by
      obtain ⟨_, hmore⟩ :=
        Nat.exists_eq_succ_of_ne_zero (Nat.sub_ne_zero_of_lt (Nat.not_le.mp hlong))
      refine decide_eq_false fun hlarge ↦ hlarge.2.1 ?_
      rw [take_append, hmore]
      simp
    rw [hshort, hshort]

/-- The lines of a file are its first line and those of what is left. -/
theorem readLine_spec (rest : Bytes) :
    isLargeCompacted (rest.take streamPeekPrefixBytes) = isSkipped (readLine rest).1 ∧
      rawLines rest = (readLine rest).1 :: (readLine rest).2.elim [] rawLines := by
  by_cases hmem : 0x0A ∈ rest
  · obtain ⟨_, _, rfl, hline⟩ := eq_append_cons_of_mem hmem
    rw [readLine_line hline, rawLines_line hline, isLargeCompacted_line]
    exact ⟨rfl, rfl⟩
  · rw [readLine_of_not_mem hmem, rawLines_of_not_mem hmem]
    exact ⟨rfl, rfl⟩

section

variable {Time : Type} [Decoders Time] (opts : HistoryOptions Time) (state : StreamState Time)

theorem emitLines_append (front back : List Bytes) :
    emitLines opts state (front ++ back) = emitLines opts (emitLines opts state front) back :=
  foldl_append

theorem streamRolloutLines_nil : streamRolloutLines opts state [] = state.finish := by
  rw [streamRolloutLines]
  rfl

/-- The stream emits the lines that are not skipped, in order. The induction is on what is left of
the file. -/
theorem streamRolloutLines_eq (rest : Bytes) :
    streamRolloutLines opts state rest =
      (emitLines opts state (keptLines (rawLines rest))).finish := by
  induction hlength : rest.length using Nat.strong_induction_on generalizing state rest with
  | _ _ ih =>
    subst hlength
    obtain ⟨hpeeked, hlines⟩ := readLine_spec rest
    rw [streamRolloutLines, hlines, keptLines, filter_cons]
    cases hread : readLine rest with
    | mk raw left =>
      have hskip : skipLargeCompactedLine rest = if isSkipped raw then
          some (left.getD []) else none := by
        rw [skipLargeCompactedLine, hpeeked, drainLine, hread]
      split
      · next after hafter =>
        have hshorter := length_skip_lt hafter
        rw [hskip] at hafter
        split_ifs at hafter with hskipped
        cases hafter
        rw [if_neg (by simp [hskipped])]
        cases left with
        | none => exact streamRolloutLines_nil opts state
        | some after => exact ih _ hshorter state after rfl
      · next hnone =>
        rw [hskip] at hnone
        split_ifs at hnone with hskipped
        rw [if_pos (by simp [hskipped])]
        cases left with
        | none => rfl
        | some after => exact ih _ (length_after_readLine_lt hread) _ after rfl

end

/-! ### The peeked type -/

/-- A type key that was found in the peeked bytes is the first one of the whole line. -/
theorem afterTypeKey_append {peeked rest : Bytes} (hpeeked : afterTypeKey peeked = some rest)
    (more : Bytes) :
    5 ≤ peeked.length ∧ afterTypeKey (peeked ++ more) = some (rest ++ more) := by
  induction peeked with
  | nil => simp [afterTypeKey] at hpeeked
  | cons byte peeked ih =>
    rw [afterTypeKey] at hpeeked
    rw [cons_append, afterTypeKey]
    by_cases hkey : (bytesOf "\"type\"").isPrefixOf (byte :: peeked) = true
    · rw [if_pos hkey] at hpeeked
      have hstarts := isPrefixOf_iff_prefix.mp hkey
      have hlength : 6 ≤ (byte :: peeked).length := hstarts.length_le
      rw [length_cons] at hlength
      have hmore : (bytesOf "\"type\"").isPrefixOf (byte :: (peeked ++ more)) = true :=
        isPrefixOf_iff_prefix.mpr (hstarts.trans (prefix_append (byte :: peeked) more))
      rw [if_pos hmore, drop_append_of_le_length (by omega), ← some.inj hpeeked]
      exact ⟨by rw [length_cons]; omega, rfl⟩
    rw [if_neg hkey] at hpeeked
    obtain ⟨_, hrest⟩ := ih hpeeked
    have hmore : ¬(bytesOf "\"type\"").isPrefixOf (byte :: (peeked ++ more)) = true := by
      intro hfound
      have hstarts := isPrefixOf_iff_prefix.mp hfound
      refine hkey <| isPrefixOf_iff_prefix.mpr <|
        prefix_of_prefix_length_le hstarts (prefix_append (byte :: peeked) more) ?_
      change 6 ≤ (byte :: peeked).length
      rw [length_cons]
      omega
    rw [if_neg hmore]
    exact ⟨by rw [length_cons]; omega, hrest⟩

/-- A quoted value that is complete in the peeked bytes is that of the whole line. -/
theorem quotedValue_append {rest value : Bytes} (hvalue : quotedValue rest = some value)
    (more : Bytes) :
    quotedValue (rest ++ more) = some value := by
  unfold quotedValue at hvalue ⊢
  cases hdrop : rest.dropWhile fun byte ↦ byte = 0x20 || byte = 0x09 || byte = 0x3A with
  | nil => simp [hdrop] at hvalue
  | cons =>
    rw [dropWhile_append, hdrop, isEmpty_cons, if_neg Bool.false_ne_true, cons_append]
    rw [hdrop] at hvalue
    dsimp only at hvalue ⊢
    split_ifs at hvalue with hquoted
    obtain ⟨_, _, rfl, hfront⟩ := eq_append_cons_of_mem hquoted.2
    rw [if_pos ⟨hquoted.1, mem_append_left more hquoted.2⟩, ← hvalue, append_assoc,
      cons_append, takeWhile_ne_append hfront, takeWhile_ne_append hfront]

theorem peekedEnvelopeType_of_take {raw value : Bytes} {count : ℕ}
    (hpeeked : peekedEnvelopeType (raw.take count) = some value) :
    peekedEnvelopeType raw = some value := by
  obtain ⟨_, hrest, hvalue⟩ := bind_eq_some_iff.mp hpeeked
  have hmore := (afterTypeKey_append hrest (raw.drop count)).2
  rw [take_append_drop] at hmore
  exact bind_eq_some_iff.mpr ⟨_, hmore, quotedValue_append hvalue _⟩

theorem afterTypeKey_skip {front : Bytes} (hfront : 0x22 ∉ front) (rest : Bytes) :
    afterTypeKey (front ++ rest) = afterTypeKey rest := by
  induction front with
  | nil => rfl
  | cons byte front ih =>
    obtain ⟨hbyte, hfront⟩ := not_or.mp (fun hmem ↦ hfront (mem_cons.mpr hmem))
    have hkey : ¬(bytesOf "\"type\"").isPrefixOf (byte :: (front ++ rest)) = true := by
      intro hstarts
      exact hbyte (cons_prefix_cons.mp <| isPrefixOf_iff_prefix.mp hstarts).1
    rw [cons_append, afterTypeKey, if_neg hkey, ih hfront]

theorem afterTypeKey_quote (hrest : rest.head? ≠ some 0x74) :
    afterTypeKey (0x22 :: rest) = afterTypeKey rest := by
  have hkey : ¬(bytesOf "\"type\"").isPrefixOf (0x22 :: rest) = true := by
    intro hstarts
    have htail : [0x74, 0x79, 0x70, 0x65, 0x22] <+: rest :=
      (cons_prefix_cons.mp <| isPrefixOf_iff_prefix.mp hstarts).2
    obtain ⟨_, rfl⟩ := htail
    exact hrest rfl
  rw [afterTypeKey, if_neg hkey]

theorem isSpace_of_mem {space : Space} {byte : UInt8} (hbyte : byte ∈ space.1) :
    isSpace byte = true := by
  obtain ⟨text, hspace⟩ := space
  induction text with
  | nil => simp at hbyte
  | cons _ _ ih =>
    obtain ⟨_, hfirst, hrest⟩ := bind_eq_some_iff.mp hspace
    rcases mem_cons.mp hbyte with rfl | hbyte
    · by_contra hother
      simp [spaceStep, hother] at hfirst
    · exact ih hrest hbyte

variable (space : Space)

theorem quote_not_mem_space : 0x22 ∉ space.1 := fun hmem ↦ absurd (isSpace_of_mem hmem) (by decide)

theorem head_space_append {byte : UInt8} (hbyte : byte ≠ 0x74) (rest : Bytes) :
    (space.1 ++ byte :: rest).head? ≠ some 0x74 := by
  cases htext : space.1 with
  | nil => simpa using hbyte
  | cons first =>
    have hspace : isSpace first = true := isSpace_of_mem (htext ▸ mem_cons_self)
    intro hhead
    rw [cons_append, head?_cons, Option.some.injEq] at hhead
    rw [hhead] at hspace
    exact absurd hspace (by decide)

theorem quotedValue_of_space {space : Bytes} (hspace : ∀ byte ∈ space, isSpace byte = true)
    {rest value : Bytes} (hvalue : quotedValue (space ++ rest) = some value) :
    quotedValue rest = some value := by
  induction space with
  | nil => exact hvalue
  | cons byte _ ih =>
    have hbyte : byte = 0x20 ∨ byte = 0x09 ∨ byte = 0x0A ∨ byte = 0x0D := by
      simpa [isSpace, or_assoc] using hspace byte mem_cons_self
    have hrest := fun other hother ↦ hspace other (mem_cons_of_mem byte hother)
    have hstuck : ∀ text : Bytes, quotedValue (0x0A :: text) = none ∧
        quotedValue (0x0D :: text) = none :=
      fun _ ↦ ⟨rfl, rfl⟩
    rcases hbyte with rfl | rfl | rfl | rfl
    · exact ih hrest hvalue
    · exact ih hrest hvalue
    · simp [hstuck] at hvalue
    · simp [hstuck] at hvalue

theorem quotedValue_space_comma (rest : Bytes) : quotedValue (space.1 ++ 0x2C :: rest) = none := by
  cases hvalue : quotedValue (space.1 ++ 0x2C :: rest) with
  | none => rfl
  | some => exact (quotedValue_of_space (fun _ ↦ isSpace_of_mem) hvalue).symm

/-- A quoted text before the type key is passed over: a peek that finds a value finds it behind the
text. -/
theorem peeked_body {state : BodyState} {text : Bytes}
    (hscan : scan bodyStep state text = some .plain) (space : Space) (rest : Bytes) {value : Bytes}
    (hvalue : peekedEnvelopeType (text ++ 0x22 :: (space.1 ++ 0x2C :: rest)) = some value) :
    peekedEnvelopeType rest = some value := by
  induction text generalizing state with
  | nil =>
    rwa [nil_append, peekedEnvelopeType,
      afterTypeKey_quote (head_space_append space (by decide) rest),
      afterTypeKey_skip (quote_not_mem_space space)] at hvalue
  | cons byte text ih =>
    obtain ⟨next, hnext, hscan⟩ := bind_eq_some_iff.mp hscan
    rw [cons_append, peekedEnvelopeType, afterTypeKey] at hvalue
    by_cases hkey : (bytesOf "\"type\"").isPrefixOf
        (byte :: (text ++ 0x22 :: (space.1 ++ 0x2C :: rest))) = true
    · -- The quote that opens the key is an escaped one, and the one that closes it ends the string.
      obtain ⟨hbyte, _, hback⟩ := cons_prefix_cons.mp <| isPrefixOf_iff_prefix.mp hkey
      have hplain : next = .plain := by
        subst hbyte
        cases state with
        | plain => simp [bodyStep] at hnext
        | escape => exact (some.inj hnext).symm
        | hex more => simp [bodyStep, show isHex 0x22 = false from rfl] at hnext
      have hletters : (0x22 : UInt8) ∉ [0x74, 0x79, 0x70, 0x65] := by decide
      by_cases hmem : 0x22 ∈ text
      · obtain ⟨_, more, rfl, hfront⟩ := eq_append_cons_of_mem hmem
        rw [append_assoc] at hback
        rw [hplain, ← (append_cons_inj_of_not_mem hletters hfront hback).1] at hscan
        have hrefused : scan bodyStep .plain ([0x74, 0x79, 0x70, 0x65] ++ 0x22 :: more) = none :=
          rfl
        exact absurd (hrefused.symm.trans hscan) (by simp)
      obtain ⟨rfl, rfl⟩ := append_cons_inj_of_not_mem hletters hmem hback
      rw [if_pos hkey] at hvalue
      change quotedValue (space.1 ++ 0x2C :: rest) = some value at hvalue
      rw [quotedValue_space_comma] at hvalue
      simp at hvalue
    · rw [if_neg hkey] at hvalue
      exact ih hscan hvalue

/-! ### Envelopes in order -/

/-- Every line that decodes is an object with a time, a type and a payload, in this order. -/
def WrittenInOrder (file : Bytes) : Prop :=
  ∀ raw ∈ rawLines file, ∀ envelope, decodeLine raw = some envelope →
    ∃ value members, parse (lineText raw) = some value ∧ value.members = some members ∧
      members.map (fun member ↦ member.1.1) =
        [bytesOf "timestamp", bytesOf "type", bytesOf "payload"]

theorem afterTypeKey_cons {byte : UInt8} (hbyte : byte ≠ 0x22) (rest : Bytes) :
    afterTypeKey (byte :: rest) = afterTypeKey rest := by
  refine @afterTypeKey_skip [byte] ?_ rest
  simpa using hbyte.symm

def IsText (value : Value) : Prop := (∃ body, value = .string body) ∨ value = .literal .null

/-- A peeked `compacted` behind the colon is the type's own text. -/
theorem type_of_quotedValue {after start : Space} {type : Value} {rest : Bytes}
    (htype : IsText type)
    (hvalue : quotedValue (after.1 ++ 0x3A :: (start.1 ++ (type.render ++ rest))) =
      some (bytesOf "compacted")) :
    ∃ body, type = .string body ∧ body.1 = bytesOf "compacted" := by
  have hcolon := quotedValue_of_space (fun _ ↦ isSpace_of_mem) hvalue
  have hstart := @quotedValue_of_space _ (fun _ hbyte ↦ @isSpace_of_mem start _ hbyte) _ _ hcolon
  rcases htype with ⟨body, rfl⟩ | rfl
  · refine ⟨body, rfl, ?_⟩
    have hquoted : quotedValue (0x22 :: (body.1 ++ 0x22 :: rest)) = some (bytesOf "compacted") := by
      rw [← hstart, Value.render, cons_append, append_assoc, singleton_append]
    change (if (0x22 : UInt8) = 0x22 ∧ 0x22 ∈ body.1 ++ 0x22 :: rest then
      some ((body.1 ++ 0x22 :: rest).takeWhile fun byte ↦ byte ≠ 0x22) else none) = _ at hquoted
    rw [if_pos ⟨rfl, by simp⟩, Option.some.injEq] at hquoted
    by_cases hmem : 0x22 ∈ body.1
    · obtain ⟨_, more, hbody, hfront⟩ := eq_append_cons_of_mem hmem
      rw [hbody, append_assoc, cons_append, takeWhile_ne_append hfront] at hquoted
      have hscan := body.2
      rw [hbody, hquoted] at hscan
      have hrefused : scan bodyStep .plain (bytesOf "compacted" ++ 0x22 :: more) = none := rfl
      exact absurd (hrefused.symm.trans hscan) (by simp)
    · rwa [takeWhile_ne_append hmem] at hquoted
  · have hnone : quotedValue ((Value.literal .null).render ++ rest) = none := rfl
    exact absurd (hnone.symm.trans hstart) (by simp)

/-- In a line written in order a peeked `compacted` is the text of the type. -/
theorem type_of_peeked {before open' after start stop next close last : Space} {time type : Value}
    (htime : IsText time) (htype : IsText type)
    (hpeeked : peekedEnvelopeType
      (before.1 ++ 0x7B :: (open'.1 ++ 0x22 :: (bytesOf "timestamp" ++ 0x22 ::
      (after.1 ++ 0x3A :: (start.1 ++ (time.render ++ (stop.1 ++ 0x2C :: (next.1 ++ 0x22 ::
        (bytesOf "type" ++ 0x22 :: (close.1 ++ 0x3A :: (last.1 ++ (type.render ++ rest)))))))))))) =
      some (bytesOf "compacted")) :
    ∃ body, type = .string body ∧ body.1 = bytesOf "compacted" := by
  have hkey (text : Bytes) : afterTypeKey (0x22 :: (bytesOf "timestamp" ++ text)) =
      afterTypeKey text := rfl
  rw [peekedEnvelopeType, afterTypeKey_skip (quote_not_mem_space before),
    afterTypeKey_cons (by decide), afterTypeKey_skip (quote_not_mem_space open'), hkey,
    afterTypeKey_quote (head_space_append after (by decide) _),
    afterTypeKey_skip (quote_not_mem_space after),
    afterTypeKey_cons (by decide), afterTypeKey_skip (quote_not_mem_space start)] at hpeeked
  refine @type_of_quotedValue close last type rest htype ?_
  generalize hvalue : close.1 ++ 0x3A :: _ = value at hpeeked ⊢
  have hnext : peekedEnvelopeType (next.1 ++ 0x22 :: (bytesOf "type" ++ 0x22 :: value)) =
      some (bytesOf "compacted") := by
    rcases htime with ⟨body, rfl⟩ | rfl
    · have hscan : scan bodyStep .escape (0x22 :: body.1) = some .plain := by exact body.2
      refine peeked_body hscan stop _ ?_
      rw [peekedEnvelopeType, ← hpeeked, Value.render]
      simp
    · rwa [afterTypeKey_skip (by decide), afterTypeKey_skip (quote_not_mem_space stop)] at hpeeked
  rwa [peekedEnvelopeType, afterTypeKey_skip (quote_not_mem_space next)] at hnext

theorem isText_of_string {value : Value} {current text : Bytes}
    (hstored : Store.string value current = some text) : IsText value := by
  cases value with
  | string body => exact .inl ⟨body, rfl⟩
  | literal literal =>
    cases literal with
    | null => exact .inr rfl
    | true | false => simp [Store.string] at hstored
  | number | emptyArray | array | emptyObject | object => simp [Store.string] at hstored

variable {envelope : HistoryLine}

/-- A line with the three keys in order has texts or nulls there, and its type is the second. -/
theorem store_of_keys {value time type payload : Value} {first second third : Body}
    (hmembers : value.members = some [(first, time), (second, type), (third, payload)])
    (hfirst : first.1 = bytesOf "timestamp") (hsecond : second.1 = bytesOf "type")
    (hthird : third.1 = bytesOf "payload")
    (hstored : HistoryLine.store value ⟨[], [], []⟩ = some envelope) :
    IsText time ∧ IsText type ∧ ∀ body, type = .string body → envelope.type = body.decode := by
  have hdecode {key : Body} {name : Bytes} (hkey : key.1 = name)
      (hname : Utf8.encodeRunes (unescape name) = name) : key.decode = name := by
    rw [Body.decode, hkey, hname]
  unfold HistoryLine.store Store.record at hstored
  rw [hmembers] at hstored
  simp only [foldlM_cons, foldlM_nil, hdecode hfirst (by decide +kernel),
    hdecode hsecond (by decide +kernel), hdecode hthird (by decide +kernel)] at hstored
  obtain ⟨_, hfirst, hrest⟩ := bind_eq_some_iff.mp hstored
  obtain ⟨_, hsecond, hrest⟩ := bind_eq_some_iff.mp hrest
  obtain ⟨_, hthird, hlast⟩ := bind_eq_some_iff.mp hrest
  obtain ⟨_, htime, rfl⟩ := map_eq_some_iff.mp hfirst
  obtain ⟨_, htype, rfl⟩ := map_eq_some_iff.mp hsecond
  refine ⟨isText_of_string htime, isText_of_string htype, ?_⟩
  rintro _ rfl
  rw [← some.inj (hthird.trans hlast)]
  exact (some.inj htype).symm

/-- Every line that is skipped and can be decoded is a compaction. -/
theorem compacted_of_isSkipped {file raw : Bytes} (horder : WrittenInOrder file)
    (hraw : raw ∈ rawLines file) (hskipped : isSkipped raw = true)
    (hdecoded : decodeLine raw = some envelope) : envelope.envelopeType = .compacted := by
  obtain ⟨value, members, hparse, hmembers, hkeys⟩ := horder raw hraw envelope hdecoded
  have hpeeked := peekedEnvelopeType_of_take (of_decide_eq_true hskipped).2.2
  have hstored : HistoryLine.store value ⟨[], [], []⟩ = some envelope := by
    unfold decodeLine at hdecoded
    split_ifs at hdecoded
    rwa [Store.unmarshal, hparse] at hdecoded
  obtain ⟨_, htail⟩ : lineText raw <+: raw := rdropWhile_prefix _ _
  obtain ⟨_, _, hline⟩ := exists_render_of_parse hparse
  rw [← htail, hline] at hpeeked
  cases value with
  | object object =>
    obtain rfl := some.inj hmembers
    cases object with
    | last => simp [Members.toList] at hkeys
    | more _ _ _ _ _ _ object =>
      cases object with
      | last => simp [Members.toList] at hkeys
      | more _ _ _ _ type _ object =>
        cases object with
        | more open3 key3 after3 start3 payload stop3 object =>
          cases object <;> simp [Members.toList] at hkeys
        | last =>
          simp only [Members.toList, map_cons, map_nil, List.cons.injEq, and_true] at hkeys
          obtain ⟨hkey1, hkey2, hkey3⟩ := hkeys
          obtain ⟨htime, htype, hdecode⟩ := store_of_keys hmembers hkey1 hkey2 hkey3 hstored
          simp only [Value.render, Members.render, hkey1, hkey2, append_assoc,
            cons_append] at hpeeked
          obtain ⟨body, rfl, hbody⟩ := type_of_peeked htime htype hpeeked
          have hcompacted : envelope.type = bytesOf "compacted" := by
            rw [hdecode body rfl, Body.decode, hbody]
            decide +kernel
          rw [HistoryLine.envelopeType, hcompacted]
          rfl
  | emptyObject =>
    cases hmembers
    simp at hkeys
  | _ => simp [Value.members] at hmembers

/-! ### Windows -/

def historyOf (lines : List Bytes) : RolloutHistory :=
  lines.foldl (fun history raw ↦ (decodeLine raw).elim history history.record) ⟨[], []⟩

/-- The envelope is an assistant's message that is yielded, with a marked part for whose spans the
resolver is asked. -/
def Asks (envelope : HistoryLine) : Prop :=
  envelope.envelopeType = .responseItem ∧
    ∃ payload, responsePayload envelope.payload = some payload ∧
    payload.type = bytesOf "message" ∧ payload.role = roleAssistant ∧
    trimSpace (contentText payload.content) ≠ [] ∧
    ∃ part ∈ payload.content.zipIdx, part.1.type = outputTextType ∧
      part.2 ∈ injectedTranscriptIndexes envelope.payload ∧ completeTranscriptSpans part.1.text = []

/-- Wherever the resolver is asked, the last compaction with and without the skipped lines replaced
the same items. -/
def WindowsAgree (file : Bytes) : Prop :=
  ∀ before raw after envelope, rawLines file = before ++ raw :: after →
    decodeLine raw = some envelope →
    Asks envelope → (historyOf (keptLines before)).lastWindow = (historyOf before).lastWindow

theorem blank_of_intercalate {texts : List Bytes}
    (hblank : Blank (List.intercalate (bytesOf "\n") texts)) :
    ∀ text ∈ texts, Blank text := by
  induction texts with
  | nil => simp
  | cons _ texts ih =>
    cases texts with
    | nil =>
      intro text htext
      rw [mem_singleton.mp htext]
      simpa [List.intercalate] using hblank
    | cons =>
      obtain ⟨hfirst, hrest⟩ := hblank.of_append_newline
      intro text htext
      rcases mem_cons.mp htext with rfl | htext
      · exact hfirst
      · exact ih hrest text htext

theorem trimSpace_output_eq_nil {parts : List ContentPart}
    (htext : trimSpace (contentText parts) = []) :
    trimSpace (concatenatedOutputText parts) = [] := by
  rw [trimSpace_eq_nil_iff] at htext ⊢
  have hparts := blank_of_intercalate htext
  refine blank_flatMap fun part hpart ↦ ?_
  obtain ⟨hpart, htype⟩ := mem_filter.mp hpart
  by_cases hnil : part.text = []
  · rw [hnil]
    exact Blank.nil
  · refine hparts _ (mem_map.mpr ⟨part, mem_filter.mpr ⟨hpart, ?_⟩, rfl⟩)
    simp [of_decide_eq_true htype, hnil]

section

variable {Time : Type} {resolve : UnmarkedTranscriptResolver Time} {envelope : HistoryLine}
  {window other : List Bytes} {payload : ResponsePayload} {timestamp : Time}

/-- The parts depend on the window only where a marked part has no complete transcript. -/
theorem transcriptTextParts_congr {raw : Bytes}
    (hwindow : window = other ∨ ∀ part ∈ payload.content.zipIdx, part.1.type = outputTextType →
      part.2 ∈ injectedTranscriptIndexes raw → completeTranscriptSpans part.1.text ≠ []) :
    transcriptTextParts resolve raw payload timestamp window =
      transcriptTextParts resolve raw payload timestamp other := by
  rcases hwindow with rfl | hspans
  · rfl
  unfold transcriptTextParts markedTextParts
  have hparts : payload.content.zipIdx.filterMap
        (markedTextPart resolve raw (injectedTranscriptIndexes raw) timestamp window) =
      payload.content.zipIdx.filterMap
        (markedTextPart resolve raw (injectedTranscriptIndexes raw) timestamp other) := by
    refine filterMap_congr fun part hpart ↦ ?_
    unfold markedTextPart markedPartSpans
    split_ifs with htype hmarked hcomplete
    · rfl
    · rfl
    · exact absurd hcomplete (not_not.mpr (hspans part hpart (not_not.mp htype) hmarked))
    · rfl
  rw [hparts]

theorem transcriptTextParts_congr_of_asks (hwindow : Asks envelope → window = other)
    (htype : envelope.envelopeType = .responseItem)
    (hpayload : responsePayload envelope.payload = some payload)
    (hmessage : payload.type = bytesOf "message")
    (htext : trimSpace (contentText payload.content) ≠ []) :
    transcriptTextParts resolve envelope.payload payload timestamp window =
      transcriptTextParts resolve envelope.payload payload timestamp other := by
  by_cases hrole : payload.role = roleAssistant
  · refine transcriptTextParts_congr
      (or_iff_not_imp_left.mpr fun hne part hpart hout hmarked hnil ↦ hne ?_)
    exact hwindow ⟨htype, payload, hpayload, hmessage, hrole, htext, part,
      hpart, hout, hmarked, hnil⟩
  · rw [transcriptTextParts, transcriptTextParts, if_pos hrole, if_pos hrole]

variable [Decoders Time] {opts : HistoryOptions Time} {state : StreamState Time}

/-- The message of a line depends on the window only if the line asks for it. -/
theorem streamMessage_congr (hwindow : Asks envelope → window = other) :
    streamMessageFromEnvelope opts envelope window =
      streamMessageFromEnvelope opts envelope other := by
  unfold streamMessageFromEnvelope
  cases htype : envelope.envelopeType with
  | responseItem =>
    unfold responseItemMessage
    cases hpayload : responsePayload envelope.payload with
    | none => rfl
    | some payload =>
      dsimp only
      by_cases hmessage : payload.type = bytesOf "message"
      · by_cases htext : trimSpace (contentText payload.content) = []
        · rw [if_pos htext, if_pos htext]
        · rw [transcriptTextParts_congr_of_asks hwindow htype hpayload hmessage htext]
      · rw [if_neg hmessage, if_neg hmessage]
  | _ => rfl

variable {message : HistoryMessage Time}

/-- The marked text of a held message depends on the window only if the line asks for it. -/
theorem applyMarkedResponseItem_congr (hwindow : Asks envelope → window = other)
    (hmessage : trimSpace message.text ≠ []) :
    applyMarkedResponseItem opts envelope window message =
      applyMarkedResponseItem opts envelope other message := by
  unfold applyMarkedResponseItem
  by_cases htype : envelope.envelopeType = .responseItem
  · rw [if_neg (not_not.mpr htype), if_neg (not_not.mpr htype)]
    cases hpayload : responsePayload envelope.payload with
    | none => rfl
    | some payload =>
      dsimp only
      by_cases hkind : payload.type = bytesOf "message"
      · by_cases htext : trimSpace (contentText payload.content) = []
        · have hother : ¬trimSpace message.text =
              trimSpace (concatenatedOutputText payload.content) := by
            rwa [trimSpace_output_eq_nil htext]
          rw [if_neg hother, if_neg hother, ite_self, ite_self]
        · rw [transcriptTextParts_congr_of_asks hwindow htype hpayload hkind htext]
      · rw [if_pos (.inl hkind), if_pos (.inl hkind)]
  · rw [if_pos htype, if_pos htype]

@[simp] theorem applyMarkedResponseItem_text (envelope : HistoryLine) (window : List Bytes)
    (message : HistoryMessage Time) :
    (applyMarkedResponseItem opts envelope window message).text = message.text := by
  unfold applyMarkedResponseItem
  split
  · rfl
  cases responsePayload envelope.payload with
  | none => rfl
  | some =>
    dsimp only
    split_ifs <;> rfl

theorem text_of_agentMessage (hagent : envelopeIsAgentMessage envelope = true)
    (hmessage : streamMessageFromEnvelope opts envelope window = some message) :
    trimSpace message.text ≠ [] := by
  obtain ⟨htype, hpayload⟩ := of_decide_eq_true hagent
  obtain ⟨payload, hpayload, hagent⟩ := (any_eq_true _ _).mp hpayload
  have hagent : payload.type = bytesOf "agent_message" := of_decide_eq_true hagent
  have huser : ¬payload.type = bytesOf "user_message" := by
    rw [hagent]
    decide
  simp only [streamMessageFromEnvelope, htype, eventMessage, hpayload] at hmessage
  split_ifs at hmessage with hnil
  rw [← some.inj hmessage]
  simpa [textHistoryMessage] using hnil

theorem streamEnvelope_of_none
    (hmessage : streamMessageFromEnvelope opts envelope state.history.lastWindow = none) :
    streamEnvelope opts state envelope = ⟨state.history.record envelope,
        state.held.map (applyMarkedResponseItem opts envelope state.history.lastWindow),
        state.yielded⟩ := by
  simp [streamEnvelope, hmessage]

theorem streamEnvelope_of_some
    (hmessage : streamMessageFromEnvelope opts envelope state.history.lastWindow = some message) :
    streamEnvelope opts state envelope =
      ⟨state.history.record envelope, if envelopeIsAgentMessage envelope then
        some message else none, state.yielded ++
          (state.held.map (applyMarkedResponseItem opts envelope
            state.history.lastWindow)).toList ++
          if envelopeIsAgentMessage envelope then [] else [message]⟩ := by
  simp only [streamEnvelope, hmessage]
  split <;> simp

def HeldText (state : StreamState Time) : Prop :=
  ∀ message ∈ state.held, trimSpace message.text ≠ []

/-- One line keeps that a held message has text. -/
theorem HeldText.streamEnvelope (hheld : HeldText state) (envelope : HistoryLine) :
    HeldText (streamEnvelope opts state envelope) := by
  cases hmessage : streamMessageFromEnvelope opts envelope state.history.lastWindow with
  | none =>
    rw [streamEnvelope_of_none hmessage]
    intro message hmem
    obtain ⟨held, hfound, rfl⟩ := map_eq_some_iff.mp hmem
    rw [applyMarkedResponseItem_text]
    exact hheld held hfound
  | some =>
    rw [streamEnvelope_of_some hmessage]
    intro _ hother
    dsimp only at hother
    split_ifs at hother with hagent
    · rw [← some.inj hother]
      exact text_of_agentMessage hagent hmessage
    · simp at hother

@[simp] theorem streamEnvelope_history (state : StreamState Time) (envelope : HistoryLine) :
    (streamEnvelope opts state envelope).history = state.history.record envelope := by
  cases hmessage : streamMessageFromEnvelope opts envelope state.history.lastWindow with
  | none => rw [streamEnvelope_of_none hmessage]
  | some => rw [streamEnvelope_of_some hmessage]

theorem streamEnvelope_of_compacted (hcompacted : envelope.envelopeType = .compacted) :
    streamEnvelope opts state envelope =
      { state with history := state.history.record envelope } := by
  have happly : applyMarkedResponseItem opts envelope state.history.lastWindow = id := by
    funext message
    rw [applyMarkedResponseItem, if_pos (by rw [hcompacted]; decide)]
    rfl
  simp [streamEnvelope, streamMessageFromEnvelope, hcompacted, happly]

/-! ### Runs with and without the skipped lines -/

theorem emitLines_snoc (state : StreamState Time) (lines : List Bytes) (raw : Bytes) :
    emitLines opts state (lines ++ [raw]) = emitStreamLine opts (emitLines opts state lines) raw :=
  emitLines_append opts state lines [raw]

variable (lines : List Bytes) (raw : Bytes)

theorem historyOf_snoc :
    historyOf (lines ++ [raw]) = (decodeLine raw).elim (historyOf lines) (historyOf lines).record :=
  foldl_append

theorem keptLines_snoc :
    keptLines (lines ++ [raw]) = if isSkipped raw then
      keptLines lines else keptLines lines ++ [raw] := by
  rw [keptLines, filter_append, filter_singleton]
  cases isSkipped raw <;> simp [keptLines]

theorem emitStreamLine_eq (state : StreamState Time) (raw : Bytes) :
    emitStreamLine opts state raw = (decodeLine raw).elim state (streamEnvelope opts state) := by
  unfold emitStreamLine
  cases decodeLine raw <;> rfl

theorem emitLines_history : (emitLines opts .initial lines).history = historyOf lines := by
  induction lines using List.reverseRecOn with
  | nil => rfl
  | append_singleton _ raw ih =>
    rw [emitLines_snoc, historyOf_snoc, emitStreamLine_eq, ← ih]
    cases decodeLine raw with
    | none => rfl
    | some envelope => exact streamEnvelope_history _ envelope

theorem emitLines_heldText : HeldText (emitLines opts .initial lines) := by
  induction lines using List.reverseRecOn with
  | nil =>
    intro _ hmessage
    simp [emitLines, StreamState.initial] at hmessage
  | append_singleton _ raw ih =>
    rw [emitLines_snoc, emitStreamLine_eq]
    cases decodeLine raw with
    | none => exact ih
    | some envelope => exact ih.streamEnvelope envelope

variable {first second : StreamState Time}

/-- One line keeps two streams in step, if they have one window wherever the line asks for it. -/
theorem streamEnvelope_agree (hheld : first.held = second.held)
    (hyielded : first.yielded = second.yielded) (htext : HeldText first)
    (hwindow : Asks envelope → first.history.lastWindow = second.history.lastWindow) :
    (streamEnvelope opts first envelope).held = (streamEnvelope opts second envelope).held ∧
      (streamEnvelope opts first envelope).yielded =
        (streamEnvelope opts second envelope).yielded := by
  have happly : first.held.map (applyMarkedResponseItem opts envelope first.history.lastWindow) =
      second.held.map (applyMarkedResponseItem opts envelope second.history.lastWindow) := by
    rw [← hheld]
    exact map_congr fun message hmessage ↦ applyMarkedResponseItem_congr hwindow
      (htext message hmessage)
  have hsame := @streamMessage_congr _ _ _ _ _ opts hwindow
  cases hmessage : streamMessageFromEnvelope opts envelope second.history.lastWindow with
  | none =>
    rw [streamEnvelope_of_none (hsame.trans hmessage), streamEnvelope_of_none hmessage, happly]
    exact ⟨rfl, hyielded⟩
  | some =>
    rw [streamEnvelope_of_some (hsame.trans hmessage),
      streamEnvelope_of_some hmessage, happly, hyielded]
    exact ⟨rfl, rfl⟩

theorem emitStreamLine_of_isSkipped {file raw : Bytes} (horder : WrittenInOrder file)
    (hraw : raw ∈ rawLines file) (hskipped : isSkipped raw = true) (state : StreamState Time) :
    (emitStreamLine opts state raw).held = state.held ∧
      (emitStreamLine opts state raw).yielded = state.yielded := by
  rw [emitStreamLine_eq]
  cases hdecoded : decodeLine raw with
  | none => exact ⟨rfl, rfl⟩
  | some =>
    rw [elim_some, streamEnvelope_of_compacted
      (compacted_of_isSkipped horder hraw hskipped hdecoded)]
    exact ⟨rfl, rfl⟩

/-- How the runs with and without the skipped lines compare, before any of the lines.

Assumes: the file is written in order, a skipped line and every envelope keep the comparison. -/
theorem emitLines_induction {file : Bytes} (horder : WrittenInOrder file)
    {related : StreamState Time → StreamState Time → Prop} (hinitial : related .initial .initial)
    (hskip : ∀ first second next : StreamState Time, related first second →
      next.held = second.held → next.yielded = second.yielded → related first next)
    (hstep : ∀ before raw after envelope, rawLines file = before ++ raw :: after →
      decodeLine raw = some envelope →
      related (emitLines opts .initial (keptLines before)) (emitLines opts .initial before) →
      related (streamEnvelope opts (emitLines opts .initial (keptLines before)) envelope)
        (streamEnvelope opts (emitLines opts .initial before) envelope)) {before after : List Bytes}
    (hlines : rawLines file = before ++ after) :
    related (emitLines opts .initial (keptLines before)) (emitLines opts .initial before) := by
  induction before using List.reverseRecOn generalizing after with
  | nil => exact hinitial
  | append_singleton before raw ih =>
    rw [append_assoc] at hlines
    have hrelated := ih hlines
    rw [emitLines_snoc, keptLines_snoc]
    by_cases hskipped : isSkipped raw = true
    · have hkept := @emitStreamLine_of_isSkipped _ _ opts _ _ horder (by simp [hlines]) hskipped
        (emitLines opts .initial before)
      rw [if_pos hskipped]
      exact hskip _ _ _ hrelated hkept.1 hkept.2
    rw [if_neg hskipped, emitLines_snoc, emitStreamLine_eq, emitStreamLine_eq]
    cases hdecoded : decodeLine raw with
    | none => exact hrelated
    | some envelope => exact hstep before raw after envelope hlines hdecoded hrelated

/-- With agreeing windows the stream without skipped lines ends as the stream of all lines does. -/
theorem emitLines_agree {file : Bytes} (horder : WrittenInOrder file)
    (hwindows : WindowsAgree file) :
    (emitLines opts .initial (keptLines (rawLines file))).finish =
      (emitLines opts .initial (rawLines file)).finish := by
  obtain ⟨hheld, hyielded⟩ := @emitLines_induction _ _ opts file horder
    (fun first second ↦ first.held = second.held ∧ first.yielded = second.yielded) ⟨rfl, rfl⟩
    (fun _ _ _ hsame hheld hyielded ↦ ⟨hsame.1.trans hheld.symm, hsame.2.trans hyielded.symm⟩)
    (fun before raw after envelope hlines hdecoded hsame ↦ by
      refine streamEnvelope_agree hsame.1 hsame.2 (emitLines_heldText _) fun hasks ↦ ?_
      rw [emitLines_history, emitLines_history]
      exact hwindows before raw after envelope hlines hdecoded hasks)
    (rawLines file) [] (append_nil _).symm
  rw [StreamState.finish, hheld, hyielded]
  rfl

/-! ### A resolver that tells windows apart -/

def windowResolver (window : List Bytes) : UnmarkedTranscriptResolver Time := fun request ↦
  if request.priorItems = window then
    request.markedIndex.map fun index ↦ ⟨index, 0, [⟨0, 0, []⟩]⟩
  else none

/-- Two partial functions of one domain that map a list alike agree on its items. -/
theorem filterMap_inj {α β : Type} {first second : α → Option β} {items : List α}
    (hshape : ∀ item ∈ items, (first item).isSome = (second item).isSome)
    (hsame : items.filterMap first = items.filterMap second) :
    ∀ item ∈ items, first item = second item := by
  induction items with
  | nil => simp
  | cons item _ ih =>
    rw [forall_mem_cons] at hshape ⊢
    rw [filterMap_cons, filterMap_cons] at hsame
    cases hfirst : first item with
    | none =>
      have hsecond : second item = none := by simpa [hfirst] using hshape.1.symm
      exact ⟨hsecond.symm, ih hshape.2 (by simpa [hfirst, hsecond] using hsame)⟩
    | some =>
      obtain ⟨_, hsecond⟩ := isSome_iff_exists.mp (hshape.1.symm.trans (by rw [hfirst]; rfl))
      simp only [hfirst, hsecond, List.cons.injEq] at hsame
      exact ⟨by rw [hsecond, hsame.1], ih hshape.2 hsame.2⟩

omit [Decoders Time] in
theorem markedTextPart_isSome (indexes : List ℕ) (timestamp : Time) (window : List Bytes)
    (part : ContentPart × ℕ) :
    (markedTextPart resolve raw indexes timestamp window part).isSome =
      decide (part.1.type = outputTextType) := by
  unfold markedTextPart
  split_ifs with htype hmarked <;> simp_all

omit [Decoders Time] in
/-- A part that asks for the window shows it, so equal parts come from one window. -/
theorem window_of_parts_eq {raw : Bytes} (hrole : payload.role = roleAssistant)
    {part : ContentPart × ℕ} (hpart : part ∈ payload.content.zipIdx)
    (htype : part.1.type = outputTextType) (hmarked : part.2 ∈ injectedTranscriptIndexes raw)
    (hspans : completeTranscriptSpans part.1.text = [])
    (hsame : transcriptTextParts (windowResolver window) raw payload timestamp window =
      transcriptTextParts (windowResolver window) raw payload timestamp other) : window =
        other := by
  have hindexes : injectedTranscriptIndexes raw ≠ [] := ne_nil_of_mem hmarked
  have hany : (payload.content.zipIdx.any fun part ↦
      part.1.type = outputTextType ∧ part.2 ∈ injectedTranscriptIndexes raw) = true :=
    any_eq_true.mpr ⟨part, hpart, decide_eq_true ⟨htype, hmarked⟩⟩
  have hunfold (shown : List Bytes) :
      transcriptTextParts (windowResolver window) raw payload timestamp shown =
        payload.content.zipIdx.filterMap
          (markedTextPart (windowResolver window) raw
            (injectedTranscriptIndexes raw) timestamp shown) := by
    rw [transcriptTextParts, if_neg (not_not.mpr hrole), if_pos hindexes,
      markedTextParts, if_pos hany]
  rw [hunfold, hunfold] at hsame
  have hequal := filterMap_inj (fun item _ ↦ by
    rw [markedTextPart_isSome, markedTextPart_isSome]) hsame part hpart
  by_contra hne
  have hother : ¬other = window := fun hwindow ↦ hne hwindow.symm
  simp [markedTextPart, markedPartSpans, windowResolver, htype, hmarked, hspans, hother] at hequal

/-- A line that asks for the window becomes a message whose parts are made with it. -/
theorem message_of_asks (hasks : Asks envelope) :
    ∃ payload, responsePayload envelope.payload = some payload ∧
      ∃ message : HistoryMessage Time, ∀ window, streamMessageFromEnvelope opts envelope window =
        some { message with textParts :=
          (transcriptTextParts opts.resolveUnmarked envelope.payload payload
          (Decoders.parseCodexTime envelope.timestamp) window) } := by
  obtain ⟨htype, payload, hpayload, hmessage, hrole, htext, -⟩ := hasks
  refine ⟨payload, hpayload, textHistoryMessage payload.role
    (trimSpace (contentText payload.content))
    (Decoders.parseCodexTime envelope.timestamp) payload.phase, fun window ↦ ?_⟩
  have hprompt : ¬(payload.role = roleDeveloper ∨ payload.role = bytesOf "system") := by
    rw [hrole]
    decide
  have huser : ¬payload.role = bytesOf "user" := by
    rw [hrole]
    decide
  simp only [streamMessageFromEnvelope, htype, responseItemMessage, hpayload]
  rw [if_pos hmessage, if_neg htext, if_neg hprompt, if_neg huser]

def HistoryOptions.resolving (opts : HistoryOptions Time)
    (resolve : UnmarkedTranscriptResolver Time) :
    HistoryOptions Time :=
  { opts with resolveUnmarked := resolve }

theorem window_of_message_eq (hasks : Asks envelope)
    (hsame : streamMessageFromEnvelope (opts.resolving (windowResolver window)) envelope window =
      streamMessageFromEnvelope (opts.resolving (windowResolver window)) envelope other) : window =
        other := by
  obtain ⟨_, hpayload, _, hmessage⟩ := @message_of_asks _ _ _ (opts.resolving _) hasks
  rw [hmessage, hmessage, Option.some.injEq] at hsame
  obtain ⟨-, _, hfound, -, hrole, -, _, hpart, hout, hmarked, hspans⟩ := hasks
  obtain rfl := some.inj (hpayload.symm.trans hfound)
  exact window_of_parts_eq hrole hpart hout hmarked hspans (congrArg HistoryMessage.textParts hsame)

theorem streamMessage_isSome (envelope : HistoryLine) (window other : List Bytes) :
    (streamMessageFromEnvelope opts envelope window).isSome =
      (streamMessageFromEnvelope opts envelope other).isSome := by
  unfold streamMessageFromEnvelope
  cases envelope.envelopeType with
  | responseItem =>
    unfold responseItemMessage
    cases responsePayload envelope.payload with
    | none => rfl
    | some =>
      dsimp only
      split_ifs <;> rfl
  | _ => rfl

/-- The same number of messages have been yielded, and one is held in both states or in none. -/
def SameShape (first second : StreamState Time) : Prop :=
  first.held.isSome = second.held.isSome ∧ first.yielded.length = second.yielded.length

/-- One line keeps two streams of the same shape, whatever their windows. -/
theorem SameShape.streamEnvelope (hshape : SameShape first second) (envelope : HistoryLine) :
    SameShape (streamEnvelope opts first envelope) (streamEnvelope opts second envelope) := by
  obtain ⟨hheld, hlength⟩ := hshape
  have hsome :=
    @streamMessage_isSome _ _ opts envelope first.history.lastWindow second.history.lastWindow
  cases hfirst : streamMessageFromEnvelope opts envelope first.history.lastWindow with
  | none =>
    have hsecond : streamMessageFromEnvelope opts envelope second.history.lastWindow = none := by
      simpa [hfirst] using hsome.symm
    rw [streamEnvelope_of_none hfirst, streamEnvelope_of_none hsecond]
    exact ⟨by simpa using hheld, hlength⟩
  | some =>
    obtain ⟨other, hsecond⟩ : ∃ other, streamMessageFromEnvelope opts envelope
        second.history.lastWindow = some other := by
      rw [hfirst] at hsome
      exact isSome_iff_exists.mp hsome.symm
    rw [streamEnvelope_of_some hfirst, streamEnvelope_of_some hsecond]
    constructor
    · dsimp only
      split <;> rfl
    have hheldLength (state : StreamState Time) (apply : HistoryMessage Time →
      HistoryMessage Time) :
        (state.held.map apply).toList.length = if state.held.isSome then 1 else 0 := by
      cases state.held <;> rfl
    simp only [length_append, hlength, hheldLength, hheld]
    cases envelopeIsAgentMessage envelope <;> rfl

theorem emitLines_sameShape {file : Bytes} (horder : WrittenInOrder file)
    {before after : List Bytes} (hlines : rawLines file = before ++ after) :
    SameShape (emitLines opts .initial (keptLines before)) (emitLines opts .initial before) := by
  refine emitLines_induction horder ⟨rfl, rfl⟩ (fun first second next hshape hheld hyielded ↦ ?_)
    (fun _ _ _ envelope _ _ hshape ↦ hshape.streamEnvelope envelope) hlines
  rwa [SameShape, hheld, hyielded]

theorem yielded_isPrefix_emitStreamLine (state : StreamState Time) (raw : Bytes) :
    state.yielded <+: (emitStreamLine opts state raw).yielded := by
  rw [emitStreamLine_eq]
  cases decodeLine raw with
  | none => exact prefix_refl _
  | some envelope =>
    cases hmessage : streamMessageFromEnvelope opts envelope state.history.lastWindow with
    | none => rw [elim_some, streamEnvelope_of_none hmessage]
    | some =>
      rw [elim_some, streamEnvelope_of_some hmessage, append_assoc]
      exact prefix_append _ _

theorem yielded_isPrefix_finish (state : StreamState Time) (lines : List Bytes) :
    state.yielded <+: (emitLines opts state lines).finish := by
  induction lines generalizing state with
  | nil => exact prefix_append _ _
  | cons raw _ ih => exact (yielded_isPrefix_emitStreamLine state raw).trans (ih _)

/-- Assumes: the file is written in order. If the skipped lines make no difference with any
resolver, then the windows agree. -/
theorem windowsAgree_of_stream_eq {file : Bytes} (horder : WrittenInOrder file)
    (hsame : ∀ resolve : UnmarkedTranscriptResolver Time,
      streamMessages (opts.resolving resolve) file = decodedMessages
        (opts.resolving resolve) file) :
    WindowsAgree file := by
  intro before raw after envelope hlines hdecoded hasks
  have hraw : raw ∈ rawLines file := by simp [hlines]
  have hkept : ¬isSkipped raw = true := by
    intro hskipped
    have hcompacted := compacted_of_isSkipped horder hraw hskipped hdecoded
    rw [hasks.1] at hcompacted
    simp at hcompacted
  let shown := opts.resolving (windowResolver (historyOf (keptLines before)).lastWindow)
  let first := emitLines shown .initial (keptLines before)
  let second := emitLines shown .initial before
  have hfirst : first.history = historyOf (keptLines before) := emitLines_history _
  have hsecond : second.history = historyOf before := emitLines_history _
  obtain ⟨_, -, _, hmessage⟩ := @message_of_asks _ _ _ shown hasks
  have hagent : ¬envelopeIsAgentMessage envelope = true := by
    intro hagent
    have htype := (of_decide_eq_true hagent).1
    rw [hasks.1] at htype
    simp at htype
  have hstream : streamMessages shown file =
      (emitLines shown (emitStreamLine shown first raw) (keptLines after)).finish := by
    rw [streamMessages, streamRolloutLines_eq, hlines, keptLines, filter_append,
      filter_cons_of_pos (by simp [hkept]), emitLines_append]
    rfl
  have hdecodedAll : decodedMessages shown file =
      (emitLines shown (emitStreamLine shown second raw) after).finish := by
    rw [decodedMessages, hlines, emitLines_append]
    rfl
  -- Both streams have the message of the line at the same place.
  have hfront :=
    @yielded_isPrefix_finish _ _ shown (emitStreamLine shown first raw) (keptLines after)
  have hback := @yielded_isPrefix_finish _ _ shown (emitStreamLine shown second raw) after
  rw [← hstream, hsame _] at hfront
  rw [← hdecodedAll] at hback
  have hshape : SameShape first second := emitLines_sameShape horder hlines
  have hafter : SameShape (emitStreamLine shown first raw) (emitStreamLine shown second raw) := by
    rw [emitStreamLine_eq, emitStreamLine_eq, hdecoded]
    exact hshape.streamEnvelope envelope
  have hyielded : (emitStreamLine shown first raw).yielded =
      (emitStreamLine shown second raw).yielded :=
    (prefix_of_prefix_length_le hfront hback hafter.2.le).eq_of_length hafter.2
  rw [emitStreamLine_eq, emitStreamLine_eq, hdecoded, elim_some, elim_some,
    streamEnvelope_of_some (hmessage _), streamEnvelope_of_some (hmessage _)] at hyielded
  simp only [if_neg hagent, hfirst, hsecond] at hyielded
  have hlast := List.cons.inj (append_inj' hyielded rfl).2
  refine @window_of_message_eq _ _ _ _ _ opts hasks ?_
  change streamMessageFromEnvelope shown envelope _ = streamMessageFromEnvelope shown envelope _
  rw [hmessage, hmessage, hlast.1]

end

/-! ### The stream -/

/-- The stream has the messages of the decoded file, whatever the resolver, exactly if the windows
agree. Assumes: every line that decodes is an envelope with its time, its type and its payload in
this order. -/
theorem stream_eq_decoded_iff {Time : Type} [Decoders Time] (opts : HistoryOptions Time)
    (file : Bytes) (horder : WrittenInOrder file) :
    (∀ resolve : UnmarkedTranscriptResolver Time,
        streamMessages (opts.resolving resolve) file =
          decodedMessages (opts.resolving resolve) file) ↔ WindowsAgree file := by
  constructor
  · exact windowsAgree_of_stream_eq horder
  · intro hwindows _
    rw [streamMessages, streamRolloutLines_eq]
    exact emitLines_agree horder hwindows

/-! ### A compaction before a marked message -/

instance : Decoders Unit := ⟨fun _ ↦ (), fun _ ↦ none⟩

def sampleOptions (resolve : UnmarkedTranscriptResolver Unit) : HistoryOptions Unit :=
  ⟨false, false, resolve⟩

/-- A user's message. -/
def sampleItem : Bytes :=
  bytesOf ("\x7b\"timestamp\":\"t\",\"type\":\"response_item\"," ++
    "\"payload\":\x7b\"type\":\"message\"\x7d\x7d")

/-- A compaction with a replacement of so many bytes. -/
def sampleCompaction (size : ℕ) : Bytes :=
  bytesOf
    "\x7b\"timestamp\":\"t\",\"type\":\"compacted\",\"payload\":\x7b\"replacement_history\":[\"" ++
    List.replicate size 0x61 ++ bytesOf "\"]\x7d\x7d"

def sampleMarked : Bytes :=
  bytesOf
    ("\x7b\"timestamp\":\"t\",\"type\":\"response_item\",\"payload\":\x7b\"type\":\"message\"," ++
    "\"role\":\"assistant\",\"content\":[\x7b\"type\":\"output_text\",\"text\":\"hi\"\x7d]," ++
    "\"internal_chat_message_metadata_passthrough\":\x7b\"content_item_kinds\":[" ++
    "\"clyde.pre_compaction_transcript.v2\"]\x7d\x7d\x7d")

def sampleFile (size : ℕ) : Bytes :=
  sampleItem ++ 0x0A :: (sampleCompaction size ++ 0x0A :: sampleMarked)

def lineKeys (raw : Bytes) : Option (List Bytes) :=
  ((parse (lineText raw)).bind Value.members).map (List.map fun member ↦ member.1.1)

section

variable {size : ℕ} (hline : 0x0A ∉ sampleCompaction size)
include hline

theorem rawLines_sampleFile :
    rawLines (sampleFile size) =
      [sampleItem ++ [0x0A], sampleCompaction size ++ [0x0A], sampleMarked] := by
  rw [sampleFile, rawLines_line (by decide +kernel), rawLines_line hline,
    rawLines_of_not_mem (by decide +kernel)]

theorem writtenInOrder_sampleFile (hkeys : lineKeys (sampleCompaction size ++ [0x0A]) =
      some [bytesOf "timestamp", bytesOf "type", bytesOf "payload"]) :
    WrittenInOrder (sampleFile size) := by
  have hread {raw : Bytes}
      (hkeys : lineKeys raw = some [bytesOf "timestamp", bytesOf "type", bytesOf "payload"]) :
      ∃ value members, parse (lineText raw) = some value ∧ value.members = some members ∧
        members.map (fun member ↦ member.1.1) = [bytesOf "timestamp", bytesOf "type",
          bytesOf "payload"] := by
    obtain ⟨members, hmembers, hnames⟩ := map_eq_some_iff.mp hkeys
    obtain ⟨value, hvalue, hmembers⟩ := bind_eq_some_iff.mp hmembers
    exact ⟨value, members, hvalue, hmembers, hnames⟩
  intro _ hraw _ _
  rw [rawLines_sampleFile hline] at hraw
  simp only [mem_cons, not_mem_nil, or_false] at hraw
  rcases hraw with rfl | rfl | rfl
  · exact hread (by decide +kernel)
  · exact hread hkeys
  · exact hread (by decide +kernel)

end

/-- With a small compaction before a marked message, the message is yielded and the resolver is
shown the same window. -/
theorem stream_eq_decoded_sample :
    WrittenInOrder (sampleFile 1) ∧
      (decodedMessages (sampleOptions fun _ ↦ none) (sampleFile 1)).length = 1 ∧
      ∀ resolve : UnmarkedTranscriptResolver Unit,
        streamMessages (sampleOptions resolve) (sampleFile 1) =
          decodedMessages (sampleOptions resolve) (sampleFile 1) := by
  have hline : 0x0A ∉ sampleCompaction 1 := by decide +kernel
  have horder : WrittenInOrder (sampleFile 1) := writtenInOrder_sampleFile hline (by decide +kernel)
  refine ⟨horder, ?_, (stream_eq_decoded_iff (sampleOptions fun _ ↦ none) _ horder).mpr ?_⟩
  · rw [decodedMessages, rawLines_sampleFile hline]
    decide +kernel
  -- No line of the file is skipped.
  have hread : ∀ raw ∈ rawLines (sampleFile 1), isSkipped raw = false := by
    rw [rawLines_sampleFile hline]
    decide +kernel
  intro before _ _ _ hlines _ _
  have hkept : keptLines before = before :=
    filter_eq_self.mpr fun raw hraw ↦ by simp [hread raw (by simp [hlines, hraw])]
  rw [hkept]

/-- With a large compaction before a marked message, some resolver makes a difference: it is shown
another window. -/
theorem marked_message_after_skipped_compaction :
    WrittenInOrder (sampleFile 4096) ∧ ¬∀ resolve : UnmarkedTranscriptResolver Unit,
      streamMessages (sampleOptions resolve) (sampleFile 4096) =
        decodedMessages (sampleOptions resolve) (sampleFile 4096) := by
  have hline : 0x0A ∉ sampleCompaction 4096 := by decide +kernel
  have horder : WrittenInOrder (sampleFile 4096) :=
    writtenInOrder_sampleFile hline (by decide +kernel)
  refine ⟨horder, fun hsame ↦ ?_⟩
  have hasks : ((decodeLine sampleMarked).any fun envelope ↦ envelope.envelopeType = .responseItem ∧
      (responsePayload envelope.payload).any fun payload ↦ payload.type = bytesOf "message" ∧
        payload.role = roleAssistant ∧ trimSpace (contentText payload.content) ≠ [] ∧
        payload.content.zipIdx.any fun part ↦ part.1.type = outputTextType ∧
          part.2 ∈ injectedTranscriptIndexes envelope.payload ∧
          completeTranscriptSpans part.1.text = []) = true := by decide +kernel
  obtain ⟨envelope, hdecoded, henvelope⟩ := (any_eq_true _ _).mp hasks
  obtain ⟨htype, hpayload⟩ := of_decide_eq_true henvelope
  obtain ⟨payload, hpayload, hitem⟩ := (any_eq_true _ _).mp hpayload
  obtain ⟨hmessage, hrole, htext, hparts⟩ := of_decide_eq_true hitem
  obtain ⟨part, hpart, hasked⟩ := any_eq_true.mp hparts
  have hdiffer :
    (historyOf (keptLines [sampleItem ++ [0x0A], sampleCompaction 4096 ++ [0x0A]])).lastWindow ≠
      (historyOf [sampleItem ++ [0x0A], sampleCompaction 4096 ++ [0x0A]]).lastWindow := by
    decide +kernel
  exact hdiffer (@windowsAgree_of_stream_eq _ _ (sampleOptions fun _ ↦ none) _ horder hsame _ _
    [] envelope (rawLines_sampleFile hline) hdecoded
    ⟨htype, payload, hpayload, hmessage, hrole, htext, part, hpart, of_decide_eq_true hasked⟩)

end Clyde.CodexStore
