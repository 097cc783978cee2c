import SnitchOs.Lib.Delimited

/-!
# Decoding a stream of frames

A frame goes over the wire as its postcard bytes in COBS form, which end in their only `0x00`. Two decoders look for
that byte: `try_decode_frame` at the front of a buffer, `decode_stream` in what it carries over from one read to the
next. postcard is a parameter of both, and a borrowed frame and its owned copy are one value.

Both come down to the terminated pieces of the bytes (`Delimited.split`): how the bytes arrive does not matter, and a
damaged piece matters to itself only.
-/

namespace SnitchOs.Wire

open Delimited List

/-- postcard on the wire: `wire_encode`, and `take_from_bytes_cobs` of a chunk with its terminator. -/
structure Codec (F : Type) where
  encode : F → List UInt8
  take : List UInt8 → Option F
  terminated : ∀ f, Terminated 0 (encode f)
  take_encode : ∀ f, take (encode f) = some f

variable {F : Type} (take : List UInt8 → Option F) {buf : List UInt8} {reads : List (List UInt8)}

/-! ### One frame -/

structure DecodeError where
  consumed : Nat
deriving DecidableEq

/-- `none` as long as there is no terminator. -/
def tryDecodeFrame (buf : List UInt8) : Except DecodeError (Option (F × Nat)) :=
  match position 0 buf with
  | none => .ok none
  | some i =>
    let consumed := i + 1
    match take (buf.take consumed) with
    | some frame => .ok (some (frame, consumed))
    | none => .error ⟨consumed⟩

/-- What it says of the buffer: no piece yet, or the first one, which decodes or does not. -/
theorem tryDecodeFrame_cases (buf : List UInt8) : match tryDecodeFrame take buf with
    | .ok none => split 0 buf = ([], buf)
    | .ok (some (frame, consumed)) => FirstPiece 0 buf consumed ∧ take (buf.take consumed) = some frame
    | .error e => FirstPiece 0 buf e.consumed ∧ take (buf.take e.consumed) = none := by
  cases hpos : position 0 buf with
  | none => simpa only [tryDecodeFrame, hpos] using split_of_not_mem (not_mem_of_position hpos)
  | some i =>
    have hfirst := firstPiece_of_position hpos
    cases htake : take (buf.take (i + 1)) <;> simpa only [tryDecodeFrame, hpos, htake, and_true] using hfirst

theorem tryDecodeFrame_ok (h : tryDecodeFrame take buf = .ok (some (frame, consumed))) :
    FirstPiece 0 buf consumed ∧ take (buf.take consumed) = some frame := by
  simpa only [h] using tryDecodeFrame_cases take buf

theorem tryDecodeFrame_error (h : tryDecodeFrame take buf = .error e) :
    FirstPiece 0 buf e.consumed ∧ take (buf.take e.consumed) = none := by
  simpa only [h] using tryDecodeFrame_cases take buf

/-- Called again behind what it consumed until it asks for more: the frames, and the bytes consumed. -/
def tryDecodeAll (buf : List UInt8) : List F × Nat :=
  match h : tryDecodeFrame take buf with
  | .ok none => ([], 0)
  | .ok (some (frame, consumed)) =>
    have := (tryDecodeFrame_ok take h).1.drop_shorter
    let rest := tryDecodeAll (buf.drop consumed)
    (frame :: rest.1, consumed + rest.2)
  | .error e =>
    have := (tryDecodeFrame_error take h).1.drop_shorter
    let rest := tryDecodeAll (buf.drop e.consumed)
    (rest.1, e.consumed + rest.2)
termination_by buf.length

/-! ### A stream -/

inductive OnDecodeError
  | fail
  | resync
deriving DecidableEq

inductive StreamError
  | invalidData
  | read
deriving DecidableEq

/-- What the sink has been called with, and `summary`. -/
structure Seen (F : Type) where
  frames : List F := []
  resyncs : Nat := 0
deriving DecidableEq

/-- The body of the inner loop. -/
def decodeChunk (onError : OnDecodeError) (seen : Seen F) (chunk : List UInt8) :
    Except (StreamError × Seen F) (Seen F) :=
  match take chunk with
  | some frame => .ok { seen with frames := seen.frames ++ [frame] }
  | none =>
    match onError with
    | .resync => .ok { seen with resyncs := seen.resyncs + 1 }
    | .fail => .error (.invalidData, seen)

def drain (onError : OnDecodeError) (seen : Seen F) (buf : List UInt8) :
    Except (StreamError × Seen F) (Seen F × List UInt8) :=
  match h : position 0 buf with
  | none => .ok (seen, buf)
  | some i =>
    have := (firstPiece_of_position h).drop_shorter
    match decodeChunk take onError seen (buf.take (i + 1)) with
    | .error e => .error e
    | .ok seen => drain onError seen (buf.drop (i + 1))
termination_by buf.length

/-- The outer loop, over what the reads return: `none` for a read that fails. The source is closed behind
the last of them, and by a read of no bytes. -/
def decodeLoop (onError : OnDecodeError) (seen : Seen F) (buf : List UInt8) :
    List (Option (List UInt8)) → Except (StreamError × Seen F) (Seen F)
  | [] => (drain take onError seen buf).map Prod.fst
  | read :: reads =>
    match drain take onError seen buf with
    | .error e => .error e
    | .ok (seen, buf) =>
      match read with
      | none => .error (.read, seen)
      | some tmp => if tmp.isEmpty then .ok seen else decodeLoop onError seen (buf ++ tmp) reads

def decodeStream (onError : OnDecodeError) (reads : List (Option (List UInt8))) :
    Except (StreamError × Seen F) (Seen F) :=
  decodeLoop take onError {} [] reads

/-! ### Chunks -/

variable {take}

/-- Neither decoder sees more of the bytes than their terminated pieces. -/
theorem tryDecodeAll_eq (buf : List UInt8) :
    tryDecodeAll take buf = ((split 0 buf).1.filterMap take, (split 0 buf).1.flatten.length) := by
  rw [tryDecodeAll]
  split
  case h_1 h =>
    have hsplit : split 0 buf = ([], buf) := by simpa only [h] using tryDecodeFrame_cases take buf
    rw [hsplit]
    rfl
  case h_2 frame consumed h =>
    obtain ⟨hfirst, htake⟩ := tryDecodeFrame_ok take h
    have := hfirst.drop_shorter
    simp [tryDecodeAll_eq (buf.drop consumed), hfirst.split_eq, htake, Nat.min_eq_left hfirst.le]
  case h_3 e h =>
    obtain ⟨hfirst, htake⟩ := tryDecodeFrame_error take h
    have := hfirst.drop_shorter
    simp [tryDecodeAll_eq (buf.drop e.consumed), hfirst.split_eq, htake, Nat.min_eq_left hfirst.le]
termination_by buf.length

theorem drain_eq (onError : OnDecodeError) (seen : Seen F) (buf : List UInt8) : drain take onError seen buf =
      ((split 0 buf).1.foldlM (decodeChunk take onError) seen).map (·, (split 0 buf).2) := by
  rw [drain]
  split
  case h_1 hpos =>
    rw [split_of_not_mem (not_mem_of_position hpos)]
    rfl
  case h_2 i hpos =>
    have hfirst := firstPiece_of_position hpos
    have := hfirst.drop_shorter
    rw [hfirst.split_eq, foldlM_cons]
    cases decodeChunk take onError seen (buf.take (i + 1)) with
    | error e => rfl
    | ok seen => exact drain_eq onError seen _
termination_by buf.length

/-- The buffer between two reads is the rest behind the chunks so far. -/
theorem decodeLoop_eq (onError : OnDecodeError) (hreads : ∀ read ∈ reads, read ≠ []) (seen : Seen F)
    (buf : List UInt8) : decodeLoop take onError seen buf (reads.map some) =
      (split 0 (buf ++ reads.flatten)).1.foldlM (decodeChunk take onError) seen := by
  induction reads generalizing seen buf with
  | nil =>
    rw [map_nil, decodeLoop, drain_eq, flatten_nil, append_nil]
    cases (split 0 buf).1.foldlM (decodeChunk take onError) seen <;> rfl
  | cons read reads ih =>
    have hread : read.isEmpty = false := by simpa using hreads read mem_cons_self
    rw [map_cons, decodeLoop, drain_eq, split_append, foldlM_append]
    cases (split 0 buf).1.foldlM (decodeChunk take onError) seen with
    | error e => rfl
    | ok seen =>
      simp only [Except.map, hread, Bool.false_eq_true, if_false]
      rw [ih (fun read h => hreads read (mem_cons_of_mem _ h)), flatten_cons, append_assoc]
      rfl

theorem decodeStream_eq (onError : OnDecodeError) (hreads : ∀ read ∈ reads, read ≠ []) :
    decodeStream take onError (reads.map some) = (split 0 reads.flatten).1.foldlM (decodeChunk take onError) {} :=
  decodeLoop_eq onError hreads {} []

theorem decodeChunks_resync (seen : Seen F) (chunks : List (List UInt8)) : chunks.foldlM (decodeChunk take .resync) seen =
      .ok ⟨seen.frames ++ chunks.filterMap take, seen.resyncs + chunks.countP fun chunk => (take chunk).isNone⟩ := by
  induction chunks generalizing seen with
  | nil => simp [pure, Except.pure]
  | cons chunk chunks ih =>
    rw [foldlM_cons, decodeChunk]
    cases htake : take chunk with
    | none =>
      refine (ih _).trans ?_
      simp [htake, Nat.add_assoc, Nat.add_comm 1]
    | some frame =>
      refine (ih _).trans ?_
      simp [htake]

theorem decodeChunks_frames (codec : Codec F) (onError : OnDecodeError) (seen : Seen F) (frames : List F) :
    (frames.map codec.encode).foldlM (decodeChunk codec.take onError) seen =
      .ok { seen with frames := seen.frames ++ frames } := by
  induction frames generalizing seen with
  | nil => simp [pure, Except.pure]
  | cons frame frames ih =>
    have hchunk : decodeChunk codec.take onError seen (codec.encode frame) =
        .ok { seen with frames := seen.frames ++ [frame] } := by
      rw [decodeChunk.eq_def, codec.take_encode]
    rw [map_cons, foldlM_cons, hchunk]
    refine (ih _).trans ?_
    simp

theorem split_encode (codec : Codec F) (frames : List F) :
    split 0 (frames.flatMap codec.encode) = (frames.map codec.encode, []) := by
  refine split_flatten fun piece hpiece => ?_
  obtain ⟨frame, -, rfl⟩ := mem_map.mp hpiece
  exact codec.terminated frame

/-- The frames that arrive as they were sent are among those delivered. -/
theorem unaltered_sublist (codec : Codec F) (sent : List (F × List UInt8)) :
    ((sent.filter fun p => p.2 = codec.encode p.1).map Prod.fst).Sublist (sent.filterMap fun p => codec.take p.2) := by
  induction sent with
  | nil => exact List.Sublist.slnil
  | cons p sent ih =>
    by_cases hp : p.2 = codec.encode p.1
    · rw [filter_cons_of_pos (by simpa using hp), map_cons, filterMap_cons_some (by rw [hp, codec.take_encode])]
      exact ih.cons_cons p.1
    rw [filter_cons_of_neg (by simpa using hp)]
    rw [filterMap_cons]
    cases codec.take p.2 with
    | none => exact ih
    | some frame => exact ih.cons frame

/-- Two frames of one byte each. -/
def flagCodec : Codec Bool where
  encode flag := [if flag then 2 else 1, 0]
  take
    | [1, 0] => some false
    | [2, 0] => some true
    | _ => none
  terminated flag := ⟨[if flag then 2 else 1], by cases flag <;> decide, rfl⟩
  take_encode flag := by cases flag <;> rfl

end SnitchOs.Wire
