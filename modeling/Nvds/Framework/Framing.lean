import Mathlib.Data.List.Basic

/-! # Frames on a byte stream

    A frame is a header of fixed size and a body whose length the header
    tells. Nothing on the stream marks where a frame ends; a reader finds the
    frames because it knows how many bytes it wants next. The lemmas say what
    such a reader may conclude from the bytes it has taken.
-/

namespace Framing

/-- Headers of `size` bytes, each of which tells the length of the body behind it. -/
structure Format (H : Type) where
  size : Nat
  encode : H → List UInt8
  decode : List UInt8 → H
  bodyLen : H → Nat
  length_encode : ∀ h, (encode h).length = size
  decode_encode : ∀ h, decode (encode h) = h
  size_pos : 0 < size

namespace Format

variable {H : Type} (fmt : Format H)

/-- The bytes of a frame. -/
def frame (f : H × List UInt8) : List UInt8 := fmt.encode f.1 ++ f.2

/-- The bytes of frames one after another. -/
def stream (fs : List (H × List UInt8)) : List UInt8 := fs.flatMap fmt.frame

/-- The header tells the length of the body. -/
def Fits (f : H × List UInt8) : Prop := fmt.bodyLen f.1 = f.2.length

variable {fmt} {fs : List (H × List UInt8)} {f : H × List UInt8}

@[simp] theorem stream_nil : fmt.stream [] = [] := rfl

theorem stream_cons : fmt.stream (f :: fs) = fmt.encode f.1 ++ (f.2 ++ fmt.stream fs) := by
  rw [stream, List.flatMap_cons, frame, List.append_assoc]
  rfl

theorem stream_append (fs gs : List (H × List UInt8)) :
    fmt.stream (fs ++ gs) = fmt.stream fs ++ fmt.stream gs :=
  List.flatMap_append

theorem stream_singleton (f : H × List UInt8) : fmt.stream [f] = fmt.frame f :=
  List.append_nil _

/-- The first `size` bytes are the header of the first frame. -/
theorem stream_header {got rest : List UInt8} (h : got ++ rest = fmt.stream fs)
    (hlen : got.length = fmt.size) :
    ∃ body gs, fs = (fmt.decode got, body) :: gs ∧ fmt.encode (fmt.decode got) = got ∧
      rest = body ++ fmt.stream gs := by
  cases fs with
  | nil =>
    have hpos := fmt.size_pos
    have hnil : got = [] := (List.append_eq_nil_iff.mp h).1
    rw [hnil] at hlen
    rw [← hlen] at hpos
    cases hpos
  | cons f gs =>
    rw [stream_cons] at h
    obtain ⟨hgot, hrest⟩ := List.append_inj h (by rw [hlen, fmt.length_encode])
    refine ⟨f.2, gs, ?_, ?_, hrest⟩
    · rw [hgot, fmt.decode_encode]
    · rw [hgot, fmt.decode_encode]

/-- A header and as many bytes as it tells are the first frame. -/
theorem stream_frame {header : H} {got rest : List UInt8} (hfits : ∀ f ∈ fs, fmt.Fits f)
    (h : fmt.encode header ++ (got ++ rest) = fmt.stream fs)
    (hlen : got.length = fmt.bodyLen header) :
    ∃ gs, fs = (header, got) :: gs ∧ rest = fmt.stream gs := by
  obtain ⟨body, gs, rfl, _, hrest⟩ := stream_header h (fmt.length_encode header)
  rw [fmt.decode_encode] at hfits ⊢
  have hbody : fmt.bodyLen header = body.length := hfits _ List.mem_cons_self
  obtain ⟨rfl, rfl⟩ := List.append_inj hrest (hlen.trans hbody)
  exact ⟨gs, rfl, rfl⟩

/-- While frames are left, a reader that wants a header, or a body of which bytes are missing,
    finds bytes to read. -/
theorem rest_ne_nil {header : H} {got rest : List UInt8} (hfits : ∀ f ∈ fs, fmt.Fits f)
    (h : fmt.encode header ++ (got ++ rest) = fmt.stream fs)
    (hlen : got.length < fmt.bodyLen header) : rest ≠ [] := by
  rintro rfl
  obtain ⟨body, gs, rfl, _, hrest⟩ := stream_header h (fmt.length_encode header)
  rw [fmt.decode_encode] at hfits
  have hbody : fmt.bodyLen header = body.length := hfits _ List.mem_cons_self
  have hle := congrArg List.length hrest
  rw [List.append_nil, List.length_append] at hle
  omega

/-- The same for a header of which bytes are missing. -/
theorem rest_ne_nil_of_header {got rest : List UInt8} (h : got ++ rest = fmt.stream fs)
    (hfs : fs ≠ []) (hlen : got.length < fmt.size) : rest ≠ [] := by
  rintro rfl
  cases fs with
  | nil => exact hfs rfl
  | cons f gs =>
    have hle := congrArg List.length h
    rw [stream_cons, List.append_nil, List.length_append, fmt.length_encode] at hle
    omega

end Format

end Framing
