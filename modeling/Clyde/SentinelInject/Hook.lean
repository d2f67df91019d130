import Clyde.Foundation.Text

/-!
# Sentinels in a user message

`internal/sentinelinject/hook.go`: the last message of the user in a request may contain two
configured sentinels. What follows the first one replaces the response, what follows the other one
is sent in place of the message, and with both of them in this order the response ends where the
second one begins.

The two are looked for independently, so their occurrences may overlap, and the bounds of the
response are then the wrong way round.

Scope. A body that cannot be read or decoded gives no messages, and the content of a message is a
text, the texts of its blocks, or nothing that can be read.
-/

set_option autoImplicit false

namespace Clyde.SentinelInject

open Foundation ByteCodec Text

structure Hook where
  sentinel : Bytes
  actualUserSentinel : Bytes

def Hook.new (sentinel actualUserSentinel : Bytes) : Hook :=
  ⟨trimSpace sentinel, trimSpace actualUserSentinel⟩

inductive Content
  | plain (text : Bytes)
  | blocks (texts : List Bytes)
  | unreadable

structure Message where
  role : Bytes
  content : Content

/-- `mitm.RequestResponseHookRequest`, with the messages that its body decodes to. -/
structure HookRequest where
  method : Bytes
  provider : Bytes
  path : Bytes
  messages : Option (List Message)

/-- `sentinelSplit`. A text that it does not have is `none`. -/
structure SentinelSplit where
  forcedResponse : Option Bytes
  upstreamUser : Option Bytes
  deriving DecidableEq

/-- `mitm.RequestResponseHookMatch`, with the texts that its transformers put in. -/
structure HookMatch where
  matched : Bool
  transformer : Option Bytes
  requestTransformer : Option Bytes
  continueMatching : Bool
  deriving DecidableEq

/-- `text[start:stop]`, which panics if the bounds are not in order. -/
def slice (text : Bytes) (start stop : ℕ) : Option Bytes :=
  if start ≤ stop ∧ stop ≤ text.length then some ((text.take stop).drop start) else none

/-- What is behind the first occurrence, by `strings.Cut`. An empty sentinel is not looked for. -/
def textAfter (text sentinel : Bytes) : Option Bytes :=
  if sentinel = [] then none
  else (indexOf sentinel text).map fun position ↦ text.drop (position + sentinel.length)

/-- `none` is a panic. -/
def parseSentinels (userText sentinel actualUserSentinel : Bytes) : Option SentinelSplit :=
  let separate : SentinelSplit :=
    ⟨textAfter userText sentinel, textAfter userText actualUserSentinel⟩
  if sentinel ≠ [] ∧ actualUserSentinel ≠ [] then
    match indexOf sentinel userText, indexOf actualUserSentinel userText with
    | some sentinelIdx, some actualIdx =>
      if sentinelIdx < actualIdx then
        (slice userText (sentinelIdx + sentinel.length) actualIdx).map fun forcedResponse ↦
          ⟨some forcedResponse, some (userText.drop (actualIdx + actualUserSentinel.length))⟩
      else some separate
    | _, _ => some separate
  else some separate

def Message.text (message : Message) : Bytes :=
  match message.content with
  | .plain text => text
  | .blocks texts => [0x0A].intercalate (texts.filter (· ≠ []))
  | .unreadable => []

def lastUserMessageText (messages : List Message) : Bytes :=
  (messages.reverse.find? fun message ↦ message.role = bytesOf "user").elim [] Message.text

def Hook.scanned (hook : Hook) (request : HookRequest) : Option Bytes :=
  if (hook.sentinel = [] ∧ hook.actualUserSentinel = []) ∨ request.method ≠ bytesOf "POST" ∨
      request.provider ≠ bytesOf "claude" ∨ request.path ≠ bytesOf "/v1/messages" then none
  else request.messages.map lastUserMessageText

def SentinelSplit.match (split : SentinelSplit) : HookMatch where
  matched := split.forcedResponse.isSome || split.upstreamUser.isSome
  transformer := split.forcedResponse
  requestTransformer := split.upstreamUser
  continueMatching := split.forcedResponse.isSome && split.upstreamUser.isNone

def Hook.matchRequestResponse (hook : Hook) (request : HookRequest) : Option HookMatch :=
  match hook.scanned request with
  | none => some ⟨false, none, none, false⟩
  | some text => (parseSentinels text hook.sentinel hook.actualUserSentinel).map SentinelSplit.match

/-- Both sentinels occur, the response sentinel first. -/
def Hook.InOrder (hook : Hook) (text : Bytes) (first second : ℕ) : Prop :=
  hook.sentinel ≠ [] ∧ hook.actualUserSentinel ≠ [] ∧ indexOf hook.sentinel text = some first ∧
    indexOf hook.actualUserSentinel text = some second ∧ first < second

/-- The response and the user's text are what stands between the first occurrences and behind them.
-/
def Hook.Splits (hook : Hook) (text : Bytes) (first second : ℕ) (matched : HookMatch) : Prop :=
  ∃ before response user, text = before ++ hook.sentinel ++ response ++ hook.actualUserSentinel ++
    user ∧ before.length = first ∧ (before ++ hook.sentinel ++ response).length = second ∧
    matched = ⟨true, some response, some user, false⟩

theorem take_of_indexOf {needle text : Bytes} {position : ℕ}
    (hindex : indexOf needle text = some position) :
    text.take (position + needle.length) = text.take position ++ needle := by
  obtain ⟨⟨_, hrest⟩, -⟩ := indexOf_eq_some hindex
  rw [List.take_add, ← hrest, List.take_left]

variable {text : Bytes} {hook : Hook} {first second : ℕ}

theorem Hook.InOrder.parseSentinels_eq (horder : hook.InOrder text first second) :
    parseSentinels text hook.sentinel hook.actualUserSentinel =
      (slice text (first + hook.sentinel.length) second).map fun response ↦
        ⟨some response, some (text.drop (second + hook.actualUserSentinel.length))⟩ := by
  obtain ⟨hsentinel, hactual, hfirst, hsecond, hlt⟩ := horder
  simp [parseSentinels, hsentinel, hactual, hfirst, hsecond, hlt]

theorem parseSentinels_isSome (hnone : ∀ first second, ¬hook.InOrder text first second) :
    (parseSentinels text hook.sentinel hook.actualUserSentinel).isSome = true := by
  unfold parseSentinels
  split_ifs with hboth
  · split
    · rename_i first second hfirst hsecond
      rw [if_neg fun hlt ↦ hnone first second ⟨hboth.1, hboth.2, hfirst, hsecond, hlt⟩]
      rfl
    · rfl
  · rfl

/-- Sentinels in order split the text into what stands between and behind them. -/
theorem Hook.InOrder.splits
    (horder : hook.InOrder text first second) (hle : first + hook.sentinel.length ≤ second) :
    hook.Splits text first second (SentinelSplit.match
      ⟨some ((text.take second).drop (first + hook.sentinel.length)),
        some (text.drop (second + hook.actualUserSentinel.length))⟩) := by
  obtain ⟨-, -, hfirst, hsecond, -⟩ := horder
  have hbefore : text.take first ++ hook.sentinel ++
      (text.take second).drop (first + hook.sentinel.length) = text.take second := by
    rw [← take_of_indexOf hfirst, ← min_eq_left hle, ← List.take_take, min_eq_left hle,
      List.take_append_drop]
  refine ⟨text.take first, _, _, ?_, ?_, ?_, rfl⟩
  · rw [hbefore, ← take_of_indexOf hsecond, List.take_append_drop]
  · exact List.length_take_of_le (indexOf_eq_some hfirst).2.1
  · rw [hbefore, List.length_take_of_le (indexOf_eq_some hsecond).2.1]

/-- A request is matched, and split at its sentinels if they are in order, exactly if the response
sentinel does not run into the one of the user. -/
theorem match_splits_iff (hook : Hook) (request : HookRequest) :
    (∃ matched, hook.matchRequestResponse request = some matched ∧
        ∀ text, hook.scanned request = some text → ∀ first second, hook.InOrder text first second →
          hook.Splits text first second matched) ↔
      ∀ text, hook.scanned request = some text → ∀ first second, hook.InOrder text first second →
        first + hook.sentinel.length ≤ second := by
  unfold Hook.matchRequestResponse
  cases hook.scanned request with
  | none => simp
  | some text =>
    simp only [Option.some.injEq, forall_eq']
    constructor
    · rintro ⟨_, hmatched, -⟩ first second horder
      by_contra hover
      simp [horder.parseSentinels_eq, slice, hover] at hmatched
    · intro hapart
      by_cases horder : ∃ first second, hook.InOrder text first second
      · obtain ⟨first, second, horder⟩ := horder
        have hle := hapart first second horder
        have hlength := (indexOf_eq_some horder.2.2.2.1).2.1
        refine ⟨_, by rw [horder.parseSentinels_eq, slice, if_pos ⟨hle, hlength⟩]; rfl, ?_⟩
        intro _ _ hother
        -- the first occurrences are the only ones that are compared
        obtain rfl := Option.some.inj (horder.2.2.1.symm.trans hother.2.2.1)
        obtain rfl := Option.some.inj (horder.2.2.2.1.symm.trans hother.2.2.2.1)
        exact horder.splits hle
      · push Not at horder
        obtain ⟨split, hsplit⟩ := Option.isSome_iff_exists.mp (parseSentinels_isSome horder)
        exact ⟨split.match,
          by rw [hsplit]; rfl, fun first second hother ↦ absurd hother (horder first second)⟩

/-- The end of the response sentinel is the sentinel of the user. -/
theorem match_panics :
    (Hook.new (bytesOf "ab") (bytesOf "b")).matchRequestResponse
      ⟨bytesOf "POST", bytesOf "claude", bytesOf "/v1/messages",
        some [⟨bytesOf "user", .plain (bytesOf "ab")⟩]⟩ =
      none := by
  decide +kernel

end Clyde.SentinelInject
