import Clyde.Foundation.ByteCodec

/-!
# Buffered reading

An `Upstream` is what a reader reads from: the bytes that each of its reads offers, and the failure
that ends it (the end of the stream is one). A `Reader` is a buffer in front of it, which is filled
by one read of the upstream whenever it is empty.

What a caller can see of the division into reads is whether another byte is already in the buffer.
`Reader.arrivals` lists the bytes to come with that flag.

Scope. Every read of the upstream returns a byte or the failure. Once the upstream has failed, it
fails again whenever it is read.
-/

set_option autoImplicit false

namespace Clyde.Foundation.BufferedReader

open ByteCodec List

/-- The bytes that one read offers, at least one. -/
structure Piece where
  /-- The first byte. -/
  first : UInt8
  /-- The bytes after it. -/
  rest : Bytes
  deriving Repr, DecidableEq

def Piece.bytes (piece : Piece) : Bytes := piece.first :: piece.rest

/-- The pieces to come once a read of `size` bytes has taken from the first of them. -/
def Piece.after (size : ℕ) (piece : Piece) (pieces : List Piece) : List Piece :=
  match piece.rest.drop (size - 1) with
  | [] => pieces
  | first :: rest => ⟨first, rest⟩ :: pieces

structure Upstream (ε : Type) where
  /-- The bytes its reads offer. -/
  pieces : List Piece
  /-- The error that ends it. -/
  failure : ε
  /-- Whether the failure comes with the last bytes, or only with the read after them. -/
  eager : Bool

structure Reader (ε : Type) where
  /-- The bytes read from the upstream and not yet taken. -/
  buffer : Bytes
  /-- Whether the upstream has failed and nobody has been told. -/
  failed : Bool
  upstream : Upstream ε
  failed_at_end : failed = true → upstream.pieces = []

def bufferSize : ℕ := 4096

variable {ε : Type}

def Upstream.bytes (upstream : Upstream ε) : Bytes := upstream.pieces.flatMap Piece.bytes

/-- One read of at most `size` bytes, with whether the failure comes with them; nothing if there is
only the failure. -/
def Upstream.read (size : ℕ) (upstream : Upstream ε) : Option (Piece × Bool × Upstream ε) :=
  match upstream.pieces with
  | [] => none
  | piece :: pieces =>
    let left := piece.after size pieces
    some (⟨piece.first, piece.rest.take (size - 1)⟩, upstream.eager && left.isEmpty,
      { upstream with pieces := left })

variable {size : ℕ} {piece : Piece}

theorem Upstream.pieces_of_read {upstream left : Upstream ε}
    {failed : Bool} (hread : upstream.read size = some (piece, failed, left))
    (hfailed : failed = true) :
    left.pieces = [] := by
  unfold Upstream.read at hread
  split at hread
  · cases hread
  · obtain ⟨-, rfl, rfl⟩ := hread
    simpa using (Bool.and_eq_true_iff.mp hfailed).2

namespace Reader

def new (upstream : Upstream ε) : Reader ε := ⟨[], false, upstream, by simp⟩

section

variable (reader : Reader ε)

def bytes : Bytes := reader.buffer ++ reader.upstream.bytes

def failure : ε := reader.upstream.failure

def reported : Reader ε :=
  { reader with failed := false, failed_at_end := by simp }

/-- Takes one byte, and fills the buffer first if it is empty. -/
def readByte : Except ε UInt8 × Reader ε :=
  match reader.buffer with
  | byte :: rest => (.ok byte, { reader with buffer := rest })
  | [] =>
    if reader.failed then (.error reader.failure, reader.reported)
    else
      match hread : reader.upstream.read bufferSize with
      | none => (.error reader.failure, reader)
      | some (piece, failed, upstream) =>
        (.ok piece.first, ⟨piece.rest, failed, upstream, Upstream.pieces_of_read hread⟩)

end

/-- Takes bytes of the buffer, or if there are none those of one read of the upstream, past the
buffer. -/
def readLarge (size : ℕ) (reader : Reader ε) : Bytes × Option ε × Reader ε :=
  if reader.buffer ≠ [] then
    (reader.buffer.take size, none, { reader with buffer := reader.buffer.drop size })
  else if reader.failed then ([], some reader.failure, reader.reported)
  else
    match reader.upstream.read size with
    | none => ([], some reader.failure, reader)
    | some (piece, failed, upstream) =>
      (piece.bytes, if failed then some reader.failure else none, ⟨[], false, upstream, by simp⟩)

def discard (count : ℕ) (reader : Reader ε) : Reader ε :=
  { reader with buffer := reader.buffer.drop count }

end Reader

/-- The bytes of one filling of the buffer, each with whether another one is in the buffer then. -/
def burst : Bytes → List (UInt8 × Bool)
  | [] => []
  | byte :: rest => (byte, !rest.isEmpty) :: burst rest

/-- The bytes of a piece, which fills the buffer as often as it has to. -/
def Piece.arrivals (piece : Piece) : List (UInt8 × Bool) :=
  burst (piece.first :: piece.rest.take (bufferSize - 1)) ++
    match _hleft : piece.rest.drop (bufferSize - 1) with
    | [] => []
    | first :: rest => Piece.arrivals ⟨first, rest⟩
  termination_by piece.rest.length
  decreasing_by
    have hlength := congrArg List.length _hleft
    simp only [List.length_drop, List.length_cons] at hlength
    omega

def Upstream.arrivals (upstream : Upstream ε) : List (UInt8 × Bool) :=
  upstream.pieces.flatMap Piece.arrivals

/-- The bytes to come, each with whether another byte is in the buffer once it is taken. -/
def Reader.arrivals (reader : Reader ε) : List (UInt8 × Bool) :=
  burst reader.buffer ++ reader.upstream.arrivals

@[simp] theorem burst_nil : burst [] = [] := rfl

@[simp] theorem map_fst_burst (bytes : Bytes) : (burst bytes).map Prod.fst = bytes := by
  induction bytes with
  | nil => rfl
  | cons _ _ ih => simp [burst, ih]

theorem Piece.flatMap_after {α : Type} (visit : Piece → List α) (size : ℕ) (piece : Piece)
    (pieces : List Piece) :
    (piece.after size pieces).flatMap visit =
      (piece.after size []).flatMap visit ++ pieces.flatMap visit := by
  unfold Piece.after
  split <;> simp

theorem Piece.arrivals_eq (piece : Piece) :
    piece.arrivals = burst (piece.first :: piece.rest.take (bufferSize - 1)) ++
      (piece.after bufferSize []).flatMap Piece.arrivals := by
  conv_lhs => unfold Piece.arrivals
  unfold Piece.after
  split <;> rename_i hleft <;> simp [hleft]

theorem Piece.bytes_after (size : ℕ) (piece : Piece) (pieces : List Piece) :
    piece.first :: (piece.rest.take (size - 1) ++ (piece.after size pieces).flatMap Piece.bytes) =
      piece.bytes ++ pieces.flatMap Piece.bytes := by
  have hleft : (piece.after size []).flatMap Piece.bytes = piece.rest.drop (size - 1) := by
    unfold Piece.after
    split <;> rename_i hdrop <;> simp [hdrop, Piece.bytes]
  rw [Piece.flatMap_after, hleft, ← append_assoc, take_append_drop]
  rfl

theorem Piece.map_fst_arrivals (piece : Piece) : piece.arrivals.map Prod.fst = piece.bytes := by
  induction hlength : piece.rest.length using Nat.strong_induction_on generalizing piece with
  | _ length ih =>
    have hleft : ((piece.after bufferSize []).flatMap Piece.arrivals).map Prod.fst =
        (piece.after bufferSize []).flatMap Piece.bytes := by
      unfold Piece.after
      split
      · rfl
      · rename_i first rest hdrop
        have hdropped := congrArg List.length hdrop
        simp only [length_drop, length_cons] at hdropped
        simpa using ih rest.length (by omega) ⟨first, rest⟩ rfl
    rw [Piece.arrivals_eq, map_append, hleft]
    simpa using Piece.bytes_after bufferSize piece []

theorem Upstream.pieces_of_bytes_nil {upstream : Upstream ε} (hnil : upstream.bytes = []) :
    upstream.pieces = [] := by
  cases hpieces : upstream.pieces with
  | nil => rfl
  | cons => simp [Upstream.bytes, hpieces, Piece.bytes] at hnil

variable (upstream : Upstream ε)

@[simp] theorem Upstream.map_fst_arrivals : upstream.arrivals.map Prod.fst = upstream.bytes := by
  simp [Upstream.arrivals, Upstream.bytes, map_flatMap, Piece.map_fst_arrivals]

namespace Reader

variable {reader : Reader ε}

@[simp] theorem map_fst_arrivals (reader : Reader ε) :
    reader.arrivals.map Prod.fst = reader.bytes := by
  simp [arrivals, bytes]

@[simp] theorem bytes_new : (new upstream).bytes = upstream.bytes := rfl

@[simp] theorem arrivals_new :
    (new upstream).arrivals = upstream.arrivals := rfl

@[simp] theorem failure_new :
    (new upstream).failure = upstream.failure := rfl

@[simp] theorem discard_zero (reader : Reader ε) : reader.discard 0 = reader := rfl

@[simp] theorem failure_discard (count : ℕ) (reader : Reader ε) :
    (reader.discard count).failure = reader.failure := rfl

theorem discard_discard (first second : ℕ) (reader : Reader ε) :
    (reader.discard first).discard second = reader.discard (first + second) := by
  simp [discard]

theorem arrivals_of_cons {byte : UInt8} {rest : Bytes} (hbuffer : reader.buffer = byte :: rest) :
    reader.arrivals = (byte, !rest.isEmpty) :: (reader.discard 1).arrivals := by
  simp [arrivals, discard, hbuffer, burst]

theorem failed_of_pieces {pieces : List Piece}
    (hpieces : reader.upstream.pieces = piece :: pieces) : reader.failed = false := by
  by_contra hfailed
  have hend := reader.failed_at_end (by simpa using hfailed)
  simp [hpieces] at hend

theorem readByte_of_nil (hnil : reader.arrivals = []) :
    ∃ left, reader.readByte = (.error reader.failure, left) ∧ left.arrivals = [] ∧
      left.failure = reader.failure := by
  have hbytes : reader.bytes = [] := by rw [← map_fst_arrivals, hnil]; rfl
  obtain ⟨_, hupstream⟩ := append_eq_nil_iff.mp hbytes
  have hpieces := Upstream.pieces_of_bytes_nil hupstream
  have hread : reader.upstream.read bufferSize = none := by simp [Upstream.read, hpieces]
  unfold readByte
  split
  · simp_all
  split
  · exact ⟨_, rfl, hnil, rfl⟩
  · split
    · exact ⟨_, rfl, hnil, rfl⟩
    · simp_all

/-- Reading a byte takes the next arrival, and tells whether more of its piece is buffered. -/
theorem readByte_of_cons {byte : UInt8} {more : Bool} {rest : List (UInt8 × Bool)}
    (hcons : reader.arrivals = (byte, more) :: rest) :
    ∃ left, reader.readByte = (.ok byte, left) ∧ left.arrivals = rest ∧
      left.failure = reader.failure ∧ left.buffer.isEmpty = !more := by
  unfold readByte
  split
  · rename_i first left hbuffer
    rw [arrivals_of_cons hbuffer] at hcons
    obtain ⟨hfirst, hrest⟩ := List.cons.inj hcons
    cases hfirst
    refine ⟨_, rfl, ?_, rfl, by simp⟩
    simpa [arrivals, discard, hbuffer] using hrest
  · rename_i hbuffer
    have hupstream : reader.upstream.arrivals = (byte, more) :: rest := by
      simpa [arrivals, hbuffer] using hcons
    cases hpieces : reader.upstream.pieces with
    | nil => simp [Upstream.arrivals, hpieces] at hupstream
    | cons piece pieces =>
      rw [if_neg (by simp [failed_of_pieces hpieces])]
      split
      · rename_i hread
        simp [Upstream.read, hpieces] at hread
      · rename_i taken failed upstream hread
        simp only [Upstream.read, hpieces, Option.some.injEq, Prod.mk.injEq] at hread
        obtain ⟨rfl, rfl, rfl⟩ := hread
        simp only [Upstream.arrivals, hpieces, flatMap_cons, Piece.arrivals_eq piece, burst,
          cons_append, List.cons.injEq, Prod.mk.injEq] at hupstream
        obtain ⟨⟨rfl, rfl⟩, hrest⟩ := hupstream
        refine ⟨_, rfl, ?_, rfl, by simp⟩
        rw [← hrest]
        simp [arrivals, Upstream.arrivals,
          Piece.flatMap_after Piece.arrivals bufferSize piece pieces]

theorem readLarge_of_nil (hnil : reader.bytes = []) :
    ∃ left, reader.readLarge size = ([], some reader.failure, left) ∧ left.bytes = [] ∧
      left.failure = reader.failure := by
  obtain ⟨hbuffer, hupstream⟩ := append_eq_nil_iff.mp hnil
  have hpieces := Upstream.pieces_of_bytes_nil hupstream
  have hread : reader.upstream.read size = none := by simp [Upstream.read, hpieces]
  unfold readLarge
  rw [if_neg (by simp [hbuffer])]
  split
  · exact ⟨_, rfl, hnil, rfl⟩
  · rw [hread]
    exact ⟨_, rfl, hnil, rfl⟩

/-- Bytes are taken from the front, and an error that comes with them is the failure after the last
of them. -/
theorem readLarge_of_ne_nil (hsize : 0 < size) (hne : reader.bytes ≠ []) :
    ∃ chunk error left, reader.readLarge size = (chunk, error, left) ∧ chunk ≠ [] ∧
      chunk ++ left.bytes = reader.bytes ∧ left.failure = reader.failure ∧
      ∀ reported, error = some reported → reported = reader.failure ∧ left.bytes = [] := by
  unfold readLarge
  by_cases hbuffer : reader.buffer = []
  · rw [if_neg (by simp [hbuffer])]
    cases hpieces : reader.upstream.pieces with
    | nil => simp [bytes, hbuffer, Upstream.bytes, hpieces] at hne
    | cons piece pieces =>
      rw [if_neg (by simp [failed_of_pieces hpieces])]
      simp only [Upstream.read, hpieces]
      refine ⟨_, _, _, rfl, by simp [Piece.bytes], ?_, rfl, ?_⟩
      · simpa [bytes, hbuffer, Upstream.bytes, hpieces,
          Piece.bytes] using Piece.bytes_after size piece pieces
      intro _ herror
      by_cases hlast : (reader.upstream.eager && (piece.after size pieces).isEmpty) = true
      · rw [if_pos hlast, Option.some.injEq] at herror
        have hleft : piece.after size pieces = [] := by
          simpa using (Bool.and_eq_true_iff.mp hlast).2
        exact ⟨herror.symm, by simp [bytes, Upstream.bytes, hleft]⟩
      · rw [if_neg hlast] at herror
        cases herror
  rw [if_pos hbuffer]
  refine ⟨_, _, _, rfl, ?_, ?_, rfl, by simp⟩
  · simp only [ne_eq, take_eq_nil_iff, hbuffer, or_false]
    omega
  · simp only [bytes, ← append_assoc, take_append_drop]

end Reader

end Clyde.Foundation.BufferedReader
