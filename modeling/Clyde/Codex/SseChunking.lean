import Clyde.Codex.SseFrame

/-!
# Frames and the division into reads

A carriage return that ends a read is taken for a line ending of its own, and the line feed of the
next read for an empty line. `sensitive` finds the places where this shows. A text without such a
place is read the same however it arrives (`scanFrame_eq_singles`), and a text with one is read in
two ways (`scanFramesFrom_ne`).
-/

set_option autoImplicit false

namespace Clyde.Codex

open Foundation ByteCodec BufferedReader List

/-- A carriage return and a line feed come that the limit does not separate, where reading them
together and one by one differ. -/
def sensitive (maxBytes : ℕ) : (length : ℕ) → (blank : Bool) → Bytes → Bool
  | _, _, [] => false
  | length, blank, byte :: rest =>
    if maxBytes < length + 1 then sensitive maxBytes 0 true rest
    else if isLineEnd byte = false then sensitive maxBytes (length + 1) false rest
    else
      match rest with
      | [] => false
      | next :: tail =>
        if byte = 0x0D ∧ next = 0x0A then
          if blank = true ∨ length + 2 ≤ maxBytes then true else sensitive maxBytes 0 true tail
        else sensitive maxBytes (if blank then 0 else length + 1) true (next :: tail)

section

variable {maxBytes length : ℕ} {blank : Bool} {byte : UInt8} {rest : Bytes}

theorem sensitive_oversized (hlong : maxBytes < length + 1) :
    sensitive maxBytes length blank (byte :: rest) = sensitive maxBytes 0 true rest := by
  cases rest <;> simp [sensitive, hlong]

section

variable (hfits : length + 1 ≤ maxBytes)
include hfits

theorem sensitive_plain (hbyte : isLineEnd byte = false) :
    sensitive maxBytes length blank (byte :: rest) = sensitive maxBytes
      (length + 1) false rest := by
  cases rest <;> simp [sensitive, Nat.not_lt.mpr hfits, hbyte]

theorem sensitive_joined :
    sensitive maxBytes length blank (0x0D :: 0x0A :: rest) =
      if blank = true ∨ length + 2 ≤ maxBytes then true else sensitive maxBytes 0 true rest := by
  simp [sensitive, Nat.not_lt.mpr hfits, isLineEnd]

theorem sensitive_alone (hbyte : isLineEnd byte = true)
    (halone : ¬(byte = 0x0D ∧ rest.head? = some 0x0A)) :
    sensitive maxBytes length blank (byte :: rest) =
      sensitive maxBytes (if blank then 0 else length + 1) true rest := by
  cases rest with
  | nil => simp [sensitive, Nat.not_lt.mpr hfits, hbyte]
  | cons next =>
    have hnot : ¬(byte = 0x0D ∧ next = 0x0A) := by simpa using halone
    simp only [sensitive, Nat.not_lt.mpr hfits, hbyte, if_false, Bool.true_eq_false, hnot]

/-- An insensitive text stays so behind a line end. -/
theorem sensitive_lineEnd (hbyte : isLineEnd byte = true)
    (hnot : sensitive maxBytes length blank (byte :: rest) = false) :
    sensitive maxBytes (if blank then 0 else length + 1) true rest = false := by
  by_cases hjoined : byte = 0x0D ∧ rest.head? = some 0x0A
  · obtain ⟨rfl, hhead⟩ := hjoined
    obtain ⟨tail, rfl⟩ : ∃ tail, rest = 0x0A :: tail := by
      cases rest with
      | nil => simp at hhead
      | cons _ tail => exact ⟨tail, by simpa using hhead⟩
    rw [sensitive_joined hfits] at hnot
    split at hnot
    · cases hnot
    · rename_i hplace
      obtain ⟨hblank, _⟩ := not_or.mp hplace
      rwa [if_neg hblank, sensitive_oversized (by omega)]
  · rwa [sensitive_alone hfits hbyte hjoined] at hnot

end

end

/-- A text that arrives byte by byte. -/
def singles (text : Bytes) : List (UInt8 × Bool) := text.map fun byte ↦ (byte, false)

/-- On an insensitive text the scan is that of the bytes arriving one by one. The induction is on
the scan. -/
theorem scanFrame_eq_singles {maxBytes length : ℕ} {blank : Bool} {arrivals : List (UInt8 × Bool)}
    (hnot : sensitive maxBytes length blank (arrivals.map Prod.fst) = false) :
    (scanFrame maxBytes length blank arrivals).bytes =
        (scanFrame maxBytes length blank (singles (arrivals.map Prod.fst))).bytes ∧
      (scanFrame maxBytes length blank arrivals).ending =
        (scanFrame maxBytes length blank (singles (arrivals.map Prod.fst))).ending ∧
      sensitive maxBytes 0 true ((scanFrame maxBytes length blank arrivals).rest.map Prod.fst) =
        false := by
  induction hsize :
    arrivals.length using Nat.strong_induction_on generalizing length blank arrivals with
  | _ _ ih =>
    subst hsize
    cases arrivals with
    | nil => exact ⟨rfl, rfl, rfl⟩
    | cons arrival rest =>
      obtain ⟨byte, more⟩ := arrival
      have hsingles : singles (((byte, more) :: rest).map Prod.fst) =
          (byte, false) :: singles (rest.map Prod.fst) := rfl
      rw [hsingles]
      rw [map_cons] at hnot
      have hrest {length : ℕ} {blank : Bool} := @ih rest.length (by simp) length blank rest
      rcases scanFrame_cases maxBytes length byte more rest with
        hlong | ⟨hfits, hplain | ⟨rfl, rfl, flag, tail, rfl⟩ | ⟨hend, halone⟩⟩
      · rw [sensitive_oversized hlong] at hnot
        rw [scanFrame_oversized hlong, scanFrame_oversized hlong]
        exact ⟨rfl, rfl, hnot⟩
      · rw [sensitive_plain hfits hplain] at hnot
        rw [scanFrame_plain hfits hplain, scanFrame_plain hfits hplain]
        obtain ⟨hbytes, hending, hafter⟩ := hrest hnot rfl
        exact ⟨congrArg (byte :: ·) hbytes, hending, hafter⟩
      · -- The pair arrives together, past the limit.
        have hpair := hnot
        rw [map_cons, sensitive_joined hfits] at hpair
        split at hpair
        · cases hpair
        · rename_i hplace
          obtain ⟨hblank, _⟩ := not_or.mp hplace
          rw [scanFrame_joined hfits, if_pos (by omega),
            scanFrame_alone hfits (by decide) (by simp), endLine, if_neg hblank,
            map_cons, singles, map_cons, scanFrame_oversized (by omega)]
          exact ⟨rfl, rfl, hpair⟩
      have hafter := sensitive_lineEnd hfits hend hnot
      rw [scanFrame_alone hfits hend halone, scanFrame_alone hfits hend (by simp)]
      unfold endLine
      split
      · rename_i hblank
        rw [if_pos hblank] at hafter
        exact ⟨rfl, rfl, hafter⟩
      · rename_i hblank
        rw [if_neg hblank] at hafter
        obtain ⟨hbytes, hending, hlater⟩ := hrest hafter rfl
        exact ⟨congrArg (byte :: ·) hbytes, hending, hlater⟩

variable {first second : List (UInt8 × Bool)} {maxBytes : ℕ}

/-- On an insensitive text the scan depends on the bytes alone, not on how they arrive. -/
theorem scanFrame_eq_of_bytes (hbytes : first.map Prod.fst = second.map Prod.fst)
    (hnot : sensitive maxBytes 0 true (first.map Prod.fst) = false) :
    (scanFrame maxBytes 0 true first).bytes = (scanFrame maxBytes 0 true second).bytes ∧
      (scanFrame maxBytes 0 true first).ending = (scanFrame maxBytes 0 true second).ending ∧
      (scanFrame maxBytes 0 true first).rest.map Prod.fst =
        (scanFrame maxBytes 0 true second).rest.map Prod.fst ∧
      sensitive maxBytes 0 true ((scanFrame maxBytes 0 true first).rest.map Prod.fst) = false := by
  obtain ⟨hfirst, hending, hafter⟩ := scanFrame_eq_singles hnot
  rw [hbytes] at hnot
  obtain ⟨hsecond, hsecondEnding, -⟩ := scanFrame_eq_singles hnot
  rw [hbytes] at hfirst hending
  have hsame := hfirst.trans hsecond.symm
  refine ⟨hsame, hending.trans hsecondEnding.symm, ?_, hafter⟩
  have hleft := (scanFrame_bytes maxBytes 0 true first).1
  rw [hbytes, ← (scanFrame_bytes maxBytes 0 true second).1, hsame] at hleft
  exact append_cancel_left hleft

/-- Two readers of the same insensitive bytes read the same frame and are left with the same bytes.
-/
theorem readFrame_of_bytes {ε : Type} {reader other : Reader ε}
    (hbytes : other.bytes = reader.bytes) (hfailure : other.failure = reader.failure)
    (hnot : sensitive maxBytes 0 true reader.bytes = false) :
    ∃ read first second, readRawCompactionSSEFrame reader maxBytes = (read, first) ∧
      readRawCompactionSSEFrame other maxBytes = (read, second) ∧
      second.bytes = first.bytes ∧ second.failure = first.failure ∧
      sensitive maxBytes 0 true first.bytes = false := by
  obtain ⟨first, hfirst, hfirstRest, hfirstFailure⟩ := readFrame_spec maxBytes reader
  obtain ⟨second, hsecond, hsecondRest, hsecondFailure⟩ := readFrame_spec maxBytes other
  have hsame : reader.arrivals.map Prod.fst = other.arrivals.map Prod.fst := by
    rw [Reader.map_fst_arrivals, Reader.map_fst_arrivals, hbytes]
  rw [← Reader.map_fst_arrivals] at hnot
  obtain ⟨hframe, hending, hrest, _⟩ := scanFrame_eq_of_bytes hsame hnot
  refine ⟨_, first, second, hfirst, ?_, ?_, by rw [hsecondFailure, hfailure, hfirstFailure], ?_⟩
  · rw [hsecond]
    simp [FrameRead.ofScanned, hframe, hending, hfailure]
  · rw [← Reader.map_fst_arrivals, ← Reader.map_fst_arrivals first, hfirstRest, hsecondRest, hrest]
  · rwa [← Reader.map_fst_arrivals, hfirstRest]

theorem scanFramesFrom_eq (maxBytes length : ℕ) (blank : Bool) (arrivals : List (UInt8 × Bool)) :
    scanFramesFrom maxBytes length blank arrivals =
      ((scanFrame maxBytes length blank arrivals).bytes,
          (scanFrame maxBytes length blank arrivals).ending) ::
        if (scanFrame maxBytes length blank arrivals).ending = .exhausted then []
        else scanFramesFrom maxBytes 0 true (scanFrame maxBytes length blank arrivals).rest := by
  conv_lhs => unfold scanFramesFrom
  simp

/-- On an insensitive text all frames depend on the bytes alone. -/
theorem scanFramesFrom_of_bytes (hbytes : first.map Prod.fst = second.map Prod.fst)
    (hnot : sensitive maxBytes 0 true (first.map Prod.fst) = false) :
    scanFramesFrom maxBytes 0 true first = scanFramesFrom maxBytes 0 true second := by
  induction hsize : first.length using Nat.strong_induction_on generalizing first second with
  | _ _ ih =>
    obtain ⟨hframe, hending, hrest, hafter⟩ := scanFrame_eq_of_bytes hbytes hnot
    rw [scanFramesFrom_eq maxBytes 0 true first,
      scanFramesFrom_eq maxBytes 0 true second, hframe, hending]
    congr 1
    split
    · rfl
    · rename_i hmore
      refine ih _ ?_ hrest hafter rfl
      have hne : first ≠ [] := by
        rintro rfl
        exact hmore (hending ▸ rfl)
      have hlength := congrArg List.length (scanFrame_bytes maxBytes 0 true first).1
      have hpos := length_pos_iff.mpr (@scanFrame_ne_nil maxBytes 0 true _ hne)
      simp only [length_append, length_map] at hlength
      omega

/-- A text of which every carriage return arrives with its line feed, and everything else alone. -/
def paired : Bytes → List (UInt8 × Bool)
  | [] => []
  | byte :: rest => (byte, byte = 0x0D && rest.head? = some 0x0A) :: paired rest

/-- The first frame with more in front. -/
def withFront (bytes : Bytes) : List (Bytes × Ending) → List (Bytes × Ending)
  | [] => []
  | frame :: frames => (bytes ++ frame.1, frame.2) :: frames

theorem withFront_injective (bytes : Bytes) : Function.Injective (withFront bytes) := by
  intro first second heq
  cases first with
  | nil => cases second with
    | nil => rfl
    | cons => simp [withFront] at heq
  | cons _ frames => cases second with
    | nil => simp [withFront] at heq
    | cons =>
      simp only [withFront, List.cons.injEq, Prod.mk.injEq, append_cancel_left_eq] at heq
      obtain ⟨⟨hbytes, hending⟩, rfl⟩ := heq
      exact congrArg (· :: frames) (Prod.ext hbytes hending)

section

variable {maxBytes length : ℕ} {blank : Bool} {arrivals rest : List (UInt8 × Bool)} {bytes : Bytes}

theorem scanFramesFrom_of_ending {ending : Ending} (hending : ending ≠ .exhausted)
    (hscan : scanFrame maxBytes length blank arrivals = ⟨bytes, ending, rest⟩) :
    scanFramesFrom maxBytes length blank arrivals =
      (bytes, ending) :: scanFramesFrom maxBytes 0 true rest := by
  rw [scanFramesFrom_eq, hscan]
  simp [hending]

theorem scanFramesFrom_of_prepend {length' : ℕ} {blank' : Bool}
    (hscan : scanFrame maxBytes length blank arrivals =
      (scanFrame maxBytes length' blank' rest).prepend bytes) :
    scanFramesFrom maxBytes length blank arrivals =
      withFront bytes (scanFramesFrom maxBytes length' blank' rest) := by
  rw [scanFramesFrom_eq maxBytes length, hscan, scanFramesFrom_eq maxBytes length' blank' rest]
  rfl

theorem scanFramesFrom_alone {byte : UInt8} {more : Bool} (hfits : length + 1 ≤ maxBytes)
    (hbyte : isLineEnd byte = true)
    (halone : ¬(byte = 0x0D ∧ more = true ∧ rest.head?.map Prod.fst = some 0x0A)) :
    scanFramesFrom maxBytes length blank ((byte, more) :: rest) =
      if blank then ([byte], .complete) :: scanFramesFrom maxBytes 0 true rest
      else withFront [byte] (scanFramesFrom maxBytes (length + 1) true rest) := by
  have hscan := @scanFrame_alone maxBytes length blank more byte rest hfits hbyte halone
  cases blank with
  | true => exact scanFramesFrom_of_ending (by simp) hscan
  | false => exact scanFramesFrom_of_prepend hscan

end

/-- Assumes: the division into reads shows. The text is read in two ways. -/
theorem scanFramesFrom_ne {maxBytes length : ℕ} {blank : Bool} {text : Bytes}
    (hsensitive : sensitive maxBytes length blank text = true) :
    scanFramesFrom maxBytes length blank (paired text) ≠
      scanFramesFrom maxBytes length blank (singles text) := by
  induction hsize : text.length using Nat.strong_induction_on generalizing length blank text with
  | _ _ ih =>
    subst hsize
    cases text with
    | nil => cases hsensitive
    | cons byte rest =>
      have hsingles : singles (byte :: rest) = (byte, false) :: singles rest := rfl
      have hrest {length : ℕ} {blank : Bool}
          (hshows : sensitive maxBytes length blank rest = true) :=
        ih rest.length (by simp) hshows rfl
      rw [hsingles, paired]
      rcases Nat.lt_or_ge maxBytes (length + 1) with hlong | hfits
      · rw [sensitive_oversized hlong] at hsensitive
        rw [scanFramesFrom_of_ending (by simp) (scanFrame_oversized hlong),
          scanFramesFrom_of_ending (by simp) (scanFrame_oversized hlong)]
        simpa using hrest hsensitive
      cases hbyte : isLineEnd byte with
      | false =>
        rw [sensitive_plain hfits hbyte] at hsensitive
        rw [scanFramesFrom_of_prepend (scanFrame_plain hfits hbyte),
          scanFramesFrom_of_prepend (scanFrame_plain hfits hbyte)]
        exact (withFront_injective _).ne (hrest hsensitive)
      | true =>
        rw [scanFramesFrom_alone hfits hbyte (by simp : ¬(byte = 0x0D ∧ false = true ∧ _))]
        by_cases hjoined : byte = 0x0D ∧ rest.head? = some 0x0A
        · obtain ⟨rfl, hhead⟩ := hjoined
          obtain ⟨tail, rfl⟩ : ∃ tail, rest = 0x0A :: tail := by
            cases rest with
            | nil => simp at hhead
            | cons _ tail => exact ⟨tail, by simpa using hhead⟩
          have hpaired : paired (0x0A :: tail) = (0x0A, false) :: paired tail := by simp [paired]
          have hflag : (((0x0D : UInt8) = 0x0D) && ((0x0A :: tail).head? = some (0x0A : UInt8))) =
              true := by simp
          have hsecond : singles (0x0A :: tail) = (0x0A, false) :: singles tail := rfl
          rw [sensitive_joined hfits] at hsensitive
          rw [hpaired, hflag, hsecond]
          have htogether := @scanFrame_joined maxBytes length blank (paired tail) false hfits
          rcases Nat.lt_or_ge maxBytes (length + 2) with hlong | htwo
          · rw [if_pos hlong] at htogether
            rw [scanFramesFrom_of_ending (by simp) htogether]
            cases blank with
            | true => simp
            | false =>
              rw [if_neg (by simp; omega)] at hsensitive
              have hfeed := @scanFrame_oversized maxBytes _ true false 0x0A (singles tail) hlong
              rw [scanFramesFrom_of_ending (by simp) hfeed]
              simpa [withFront] using ih tail.length
                (by simp only [length_cons]; omega) hsensitive rfl
          rw [if_neg (by omega)] at htogether
          cases blank with
          | true =>
            rw [scanFramesFrom_of_ending (by simp) htogether]
            simp
          | false =>
            -- Read alone, the line feed is an empty line; read together, the frame goes on.
            rw [scanFramesFrom_of_prepend htogether, if_neg (by simp),
              scanFramesFrom_alone htwo (by decide) (by simp), if_pos rfl,
              scanFramesFrom_eq maxBytes _]
            simp only [withFront, cons_append, nil_append, ne_eq, List.cons.injEq,
              Prod.mk.injEq, true_and, not_and]
            rintro ⟨hnil, hcomplete⟩
            by_cases htail : paired tail = []
            · simp [htail] at hcomplete
            · exact absurd hnil (scanFrame_ne_nil htail)
        rw [sensitive_alone hfits hbyte hjoined] at hsensitive
        rw [scanFramesFrom_alone hfits hbyte (by
          rintro ⟨hreturn, hflag, -⟩
          exact hjoined ⟨hreturn, by simpa [hreturn] using hflag⟩)]
        cases blank with
        | true => simpa using hrest hsensitive
        | false => exact (withFront_injective _).ne (hrest hsensitive)

def singlePieces (text : Bytes) : List Piece := text.map fun byte ↦ ⟨byte, []⟩

def pairedPieces : Bytes → List Piece
  | [] => []
  | [byte] => [⟨byte, []⟩]
  | byte :: next :: rest =>
    if byte = 0x0D ∧ next = 0x0A then ⟨byte, [next]⟩ :: pairedPieces rest
    else ⟨byte, []⟩ :: pairedPieces (next :: rest)

theorem Piece.arrivals_single (byte : UInt8) : Piece.arrivals ⟨byte, []⟩ = [(byte, false)] := by
  rw [Piece.arrivals_eq]
  simp [Piece.after, burst]

theorem Piece.arrivals_pair (first second : UInt8) :
    Piece.arrivals ⟨first, [second]⟩ = [(first, true), (second, false)] := by
  rw [Piece.arrivals_eq]
  simp [Piece.after, burst, bufferSize]

variable (text : Bytes)

theorem arrivals_singlePieces : (singlePieces text).flatMap Piece.arrivals = singles text := by
  induction text with
  | nil => rfl
  | cons _ _ ih => simpa [singlePieces, singles, Piece.arrivals_single] using ih

theorem arrivals_pairedPieces : (pairedPieces text).flatMap Piece.arrivals = paired text := by
  induction text using pairedPieces.induct with
  | case1 => rfl
  | case2 byte => simp [pairedPieces, paired, Piece.arrivals_single]
  | case3 byte next rest hpair ih =>
    obtain ⟨rfl, rfl⟩ := hpair
    simp [pairedPieces, paired, Piece.arrivals_pair, ih]
  | case4 byte next rest hnot ih =>
    rw [pairedPieces, if_neg hnot, flatMap_cons, Piece.arrivals_single, ih]
    have hflag : (byte = 0x0D && (next :: rest).head? = some 0x0A) = false := by
      simpa [not_and] using hnot
    conv_rhs => rw [paired, hflag]
    rfl

theorem map_fst_singles : (singles text).map Prod.fst = text := by simp [singles, Function.comp_def]

theorem map_fst_paired : (paired text).map Prod.fst = text := by
  induction text with
  | nil => rfl
  | cons _ _ ih => simp [paired, ih]

end Clyde.Codex
