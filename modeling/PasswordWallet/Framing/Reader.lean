import Mathlib.Data.List.Infix
import Mathlib.Tactic.Ring

/-!
# Length-prefixed frames in a byte stream

A frame goes over a byte stream as one byte of identification, three bytes of
size, least significant first, and the bytes of its data.  A `Reader` is what the
bytes received so far amount to: the frames whose header has come, of which the
last one may lack data, and the bytes of a header that is not complete.  It takes
the stream byte by byte, so it cannot see how the stream is cut.

What a reader holds can be written out again (`Reader.bytes`), and each byte it
takes is appended there; so a reader tells streams of one length apart.
-/

namespace Framing

abbrev Octet := BitVec 8

/-- A frame, with what has come of its data. -/
structure Frame where
  id : Octet
  size : ℕ
  data : List Octet
  deriving DecidableEq

/-- The three bytes of a size. -/
def sizeBytes (n : ℕ) : List Octet :=
  [BitVec.ofNat 8 n, BitVec.ofNat 8 (n / 256), BitVec.ofNat 8 (n / 65536)]

/-- The size that three bytes give. -/
def sizeOf (low mid high : Octet) : ℕ := low.toNat + 256 * mid.toNat + 65536 * high.toNat

theorem sizeBytes_sizeOf (low mid high : Octet) :
    sizeBytes (sizeOf low mid high) = [low, mid, high] := by
  have hlow := low.isLt
  have hmid := mid.isLt
  have hhigh := high.isLt
  simp only [sizeBytes, sizeOf, List.cons.injEq, and_true, BitVec.toNat_eq, BitVec.toNat_ofNat]
  omega

theorem sizeOf_ofNat {n : ℕ} (h : n < 2 ^ 24) :
    sizeOf (BitVec.ofNat 8 n) (BitVec.ofNat 8 (n / 256)) (BitVec.ofNat 8 (n / 65536)) = n := by
  simp only [sizeOf, BitVec.toNat_ofNat]
  omega

/-- What goes over the stream for a frame. -/
def Frame.bytes (f : Frame) : List Octet := f.id :: (sizeBytes f.size ++ f.data)

@[simp] theorem Frame.length_bytes (f : Frame) : f.bytes.length = 4 + f.data.length := by
  simp [Frame.bytes, sizeBytes]
  omega

/-- The size of the frame is the length of its data, and fits in three bytes. -/
def Frame.Full (f : Frame) : Prop := f.data.length = f.size ∧ f.size < 2 ^ 24

def stream (frames : List Frame) : List Octet := frames.flatMap Frame.bytes

@[simp] theorem stream_nil : stream [] = [] := rfl

@[simp] theorem stream_cons (f : Frame) (frames : List Frame) :
    stream (f :: frames) = f.bytes ++ stream frames := rfl

@[simp] theorem stream_append (first second : List Frame) :
    stream (first ++ second) = stream first ++ stream second := by
  simp [stream]

/-! ## Readers -/

/-- `frames` are the frames whose header has come, in order, but for the last if
`current` holds it because it lacks data; `header` are the bytes of the header
that has begun. -/
structure Reader where
  frames : List Frame
  current : Option Frame
  header : List Octet
  deriving DecidableEq

def Reader.empty : Reader := ⟨[], none, []⟩

/-- The frames whose header has come. -/
def Reader.seen (r : Reader) : List Frame := r.frames ++ r.current.toList

/-- What a reader holds, as it came. -/
def Reader.bytes (r : Reader) : List Octet := stream r.seen ++ r.header

/-- Files a frame under those that are full, or goes on waiting for its data. -/
def Reader.file (frames : List Frame) (f : Frame) : Reader :=
  if f.data.length = f.size then ⟨frames ++ [f], none, []⟩ else ⟨frames, some f, []⟩

def Reader.feed (r : Reader) (b : Octet) : Reader :=
  match r.current with
  | some f => Reader.file r.frames { f with data := f.data ++ [b] }
  | none =>
      match r.header with
      | [id, low, mid] => Reader.file r.frames ⟨id, sizeOf low mid b, []⟩
      | header => { r with header := header ++ [b] }

def Reader.feedAll (r : Reader) (bs : List Octet) : Reader := bs.foldl Reader.feed r

@[simp] theorem Reader.feedAll_nil (r : Reader) : r.feedAll [] = r := rfl

@[simp] theorem Reader.feedAll_cons (r : Reader) (b : Octet) (bs : List Octet) :
    r.feedAll (b :: bs) = (r.feed b).feedAll bs := rfl

@[simp] theorem Reader.feedAll_append (r : Reader) (first second : List Octet) :
    r.feedAll (first ++ second) = (r.feedAll first).feedAll second :=
  List.foldl_append

/-- What holds of every reader that started empty. -/
structure Reader.Sound (r : Reader) : Prop where
  header : r.current ≠ none → r.header = []
  short : r.header.length ≤ 3
  lacks : ∀ f, r.current = some f → f.data.length < f.size

theorem Reader.sound_empty : Reader.empty.Sound :=
  ⟨fun h => absurd rfl h, Nat.zero_le _, fun _ h => by simp [empty] at h⟩

theorem Reader.sound_file {frames : List Frame} {f : Frame} (h : f.data.length ≤ f.size) :
    (Reader.file frames f).Sound := by
  unfold file
  split_ifs with hfull
  · exact ⟨fun h => absurd rfl h, Nat.zero_le _, fun _ h => by simp at h⟩
  · refine ⟨fun _ => rfl, Nat.zero_le _, fun g hg => ?_⟩
    obtain rfl := Option.some.inj hg
    exact lt_of_le_of_ne h hfull

theorem Reader.seen_file (frames : List Frame) (f : Frame) :
    (Reader.file frames f).seen = frames ++ [f] := by
  unfold file seen
  split_ifs <;> simp

theorem Reader.header_file (frames : List Frame) (f : Frame) :
    (Reader.file frames f).header = [] := by
  unfold file
  split_ifs <;> rfl

theorem Reader.Sound.feed {r : Reader} (h : r.Sound) (b : Octet) : (r.feed b).Sound := by
  unfold Reader.feed
  split
  next f hf =>
      have := h.lacks f hf
      exact sound_file (by simp; omega)
  next hnone =>
      split
      next id low mid hheader => exact sound_file (Nat.zero_le _)
      next header hheader =>
          refine ⟨fun hsome => absurd hnone hsome, ?_, fun f hf => ?_⟩
          · have hshort := h.short
            have hne : r.header.length ≠ 3 := fun hlength => by
              obtain ⟨id, low, mid, heq⟩ := List.length_eq_three.mp hlength
              exact hheader id low mid heq
            simp only [List.length_append, List.length_singleton]
            omega
          · simp [hnone] at hf

theorem Reader.bytes_file (frames : List Frame) (f : Frame) :
    (Reader.file frames f).bytes = stream frames ++ f.bytes := by
  rw [bytes, seen_file, header_file]
  simp

/-- Each byte is appended to what the reader holds. -/
theorem Reader.Sound.bytes_feed {r : Reader} (h : r.Sound) (b : Octet) :
    (r.feed b).bytes = r.bytes ++ [b] := by
  unfold Reader.feed
  split
  next f hf =>
      have hheader : r.header = [] := h.header (by simp [hf])
      rw [bytes_file]
      simp [bytes, seen, hf, hheader, Frame.bytes]
  next hnone =>
      split
      next id low mid hheader =>
          rw [bytes_file, Frame.bytes, sizeBytes_sizeOf]
          simp [bytes, seen, hnone, hheader]
      next header hheader => simp [bytes, seen, hnone]

theorem Reader.Sound.feedAll {r : Reader} (h : r.Sound) (bs : List Octet) :
    (r.feedAll bs).Sound := by
  induction bs generalizing r with
  | nil => exact h
  | cons b bs ih => exact ih (h.feed b)

theorem Reader.Sound.bytes_feedAll {r : Reader} (h : r.Sound) (bs : List Octet) :
    (r.feedAll bs).bytes = r.bytes ++ bs := by
  induction bs generalizing r with
  | nil => simp
  | cons b bs ih =>
      rw [feedAll_cons, ih (h.feed b), h.bytes_feed, List.append_assoc, List.singleton_append]

/-! ## Reading frames -/

/-- A reader that has read the frames and nothing else. -/
def Reader.after (frames : List Frame) : Reader := ⟨frames, none, []⟩

theorem Reader.feedAll_header (frames : List Frame) (id low mid high : Octet) :
    (Reader.after frames).feedAll [id, low, mid, high] =
      Reader.file frames ⟨id, sizeOf low mid high, []⟩ := rfl

/-- Data of a frame, up to what it lacks. -/
theorem Reader.feedAll_data {frames : List Frame} {f : Frame} {data : List Octet}
    (hfit : f.data.length + data.length ≤ f.size) :
    (Reader.file frames f).feedAll data =
      Reader.file frames { f with data := f.data ++ data } := by
  induction data generalizing f with
  | nil => simp
  | cons b data ih =>
      simp only [List.length_cons] at hfit
      have hlacks : f.data.length ≠ f.size := by omega
      have hfeed : (Reader.file frames f).feed b =
          Reader.file frames { f with data := f.data ++ [b] } := by
        rw [Reader.file, if_neg hlacks]
        rfl
      rw [feedAll_cons, hfeed, ih (by simp; omega)]
      simp

/-- The beginning of a frame. -/
theorem Reader.feedAll_frame {frames : List Frame} {f : Frame} (hfull : f.Full)
    {data : List Octet} (hdata : data.length ≤ f.size) :
    (Reader.after frames).feedAll (f.id :: (sizeBytes f.size ++ data)) =
      Reader.file frames { f with data := data } := by
  rw [show f.id :: (sizeBytes f.size ++ data) =
    [f.id, BitVec.ofNat 8 f.size, BitVec.ofNat 8 (f.size / 256),
      BitVec.ofNat 8 (f.size / 65536)] ++ data from rfl, feedAll_append, feedAll_header,
    sizeOf_ofNat hfull.2, feedAll_data (by simpa using hdata)]
  rfl

theorem Reader.feedAll_stream {frames new : List Frame} (hfull : ∀ f ∈ new, f.Full) :
    (Reader.after frames).feedAll (stream new) = Reader.after (frames ++ new) := by
  induction new generalizing frames with
  | nil => simp
  | cons f new ih =>
      have hf := hfull f (List.mem_cons_self ..)
      rw [stream_cons, feedAll_append, Frame.bytes, feedAll_frame hf hf.1.le, file,
        if_pos hf.1]
      have := @ih (frames ++ [f]) fun g hg => hfull g (List.mem_cons_of_mem _ hg)
      simpa [after] using this

/-- While a frame is being read, those before it are what is full. -/
theorem Reader.frames_feedAll_prefix {frames : List Frame} {f : Frame} (hfull : f.Full)
    {part rest : List Octet} (hpart : part ++ rest = f.bytes) (hrest : rest ≠ []) :
    ((Reader.after frames).feedAll part).frames = frames := by
  rcases Nat.lt_or_ge part.length 4 with hshort | hlong
  · match part, hshort with
    | [], _ => rfl
    | [_], _ => rfl
    | [_, _], _ => rfl
    | [_, _, _], _ => rfl
  · have hbytes : f.bytes = (f.id :: sizeBytes f.size) ++ f.data := rfl
    obtain ⟨data, rfl, hdata⟩ : ∃ data, part = (f.id :: sizeBytes f.size) ++ data ∧
        data ++ rest = f.data := by
      rw [hbytes, List.append_eq_append_iff] at hpart
      rcases hpart with ⟨data, h₁, h₂⟩ | ⟨data, h₁, h₂⟩
      · have hlength := congrArg List.length h₁
        simp only [List.length_cons, List.length_append, sizeBytes, List.length_nil] at hlength
        obtain rfl : data = [] := List.eq_nil_of_length_eq_zero (by omega)
        exact ⟨[], by simpa using h₁.symm, by simpa using h₂⟩
      · exact ⟨data, h₁, h₂.symm⟩
    have hlength : data.length + rest.length = f.data.length := by
      rw [← hdata, List.length_append]
    have hpos := List.length_pos_iff.mpr hrest
    have hsize := hfull.1
    rw [List.cons_append, feedAll_frame hfull (by omega), file, if_neg (by simp; omega)]

/-- A reader that holds full frames and nothing else came from their stream. -/
theorem Reader.eq_stream {bs : List Octet} {frames : List Frame}
    (hseen : (Reader.empty.feedAll bs).seen = frames)
    (hlength : bs.length = (stream frames).length) : bs = stream frames := by
  have hbytes := sound_empty.bytes_feedAll bs
  rw [show Reader.empty.bytes = [] from rfl, List.nil_append, bytes, hseen] at hbytes
  have hheader := congrArg List.length hbytes
  rw [List.length_append, hlength] at hheader
  rw [← hbytes, List.eq_nil_of_length_eq_zero (l := (Reader.empty.feedAll bs).header) (by omega),
    List.append_nil]

end Framing
