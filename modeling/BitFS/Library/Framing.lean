import BitFS.Library.BigEndian

/-! # Frames behind a length

A frame is a 32-bit length in network order and as many bytes. Frames one after
the other can be cut apart again, up to one that is not complete.
-/

namespace BitFS.Framing

open BigEndian

def frame (body : List UInt8) : List UInt8 := be32 body.length ++ body

/-- The body of the first frame and what follows it, if it is complete. -/
def unframe (s : List UInt8) : Option (List UInt8 × List UInt8) :=
  if 4 + ofBe32 (s.take 4) ≤ s.length then
    some ((s.drop 4).take (ofBe32 (s.take 4)), s.drop (4 + ofBe32 (s.take 4)))
  else none

theorem unframe_length {s body rest : List UInt8} (h : unframe s = some (body, rest)) :
    rest.length < s.length := by
  unfold unframe at h
  split at h
  · cases h
    rw [List.length_drop]
    omega
  · cases h

/-- The bodies of the complete frames, and what is left. -/
def unframeAll (s : List UInt8) : List (List UInt8) × List UInt8 :=
  match _h : unframe s with
  | none => ([], s)
  | some (body, rest) => (body :: (unframeAll rest).1, (unframeAll rest).2)
termination_by s.length
decreasing_by all_goals exact unframe_length _h

theorem unframeAll_none {s : List UInt8} (h : unframe s = none) : unframeAll s = ([], s) := by
  rw [unframeAll]
  split
  · rfl
  · rename_i hs
    rw [h] at hs
    cases hs

theorem unframeAll_some {s body rest : List UInt8} (h : unframe s = some (body, rest)) :
    unframeAll s = (body :: (unframeAll rest).1, (unframeAll rest).2) := by
  rw [unframeAll]
  split
  · rename_i hs
    rw [h] at hs
    cases hs
  · rename_i hs
    rw [h] at hs
    cases hs
    rfl

theorem unframe_frame {body : List UInt8} (h : body.length < 4294967296) (rest : List UInt8) :
    unframe (frame body ++ rest) = some (body, rest) := by
  have htake : (frame body ++ rest).take 4 = be32 body.length := by
    rw [frame, List.append_assoc]
    exact List.take_left' (be32_length _)
  have hdrop : (frame body ++ rest).drop 4 = body ++ rest := by
    rw [frame, List.append_assoc]
    exact List.drop_left' (be32_length _)
  have hlen : (frame body ++ rest).length = 4 + body.length + rest.length := by
    simp [frame]
    omega
  unfold unframe
  rw [htake, ofBe32_be32 h, if_pos (by omega), hdrop, ← List.drop_drop, hdrop, List.take_left,
    List.drop_left]

/-- Cutting apart what was put together. -/
theorem unframeAll_frames {bodies : List (List UInt8)} (h : ∀ b ∈ bodies, b.length < 4294967296)
    {rest : List UInt8} (hrest : unframe rest = none) :
    unframeAll (bodies.flatMap frame ++ rest) = (bodies, rest) := by
  induction bodies with
  | nil => exact unframeAll_none hrest
  | cons b bodies ih =>
      have hb := h b List.mem_cons_self
      have htail := ih fun b' hb' => h b' (List.mem_cons_of_mem b hb')
      rw [List.flatMap_cons, List.append_assoc, unframeAll_some (unframe_frame hb _), htail]

/-- Putting together what was cut apart. -/
theorem frame_unframe {s body rest : List UInt8} (h : unframe s = some (body, rest)) :
    frame body ++ rest = s := by
  unfold unframe at h
  split at h
  · rename_i hle
    cases h
    have htake : (s.take 4).length = 4 := List.length_take_of_le (by omega)
    have hbody : ((s.drop 4).take (ofBe32 (s.take 4))).length = ofBe32 (s.take 4) :=
      List.length_take_of_le (by rw [List.length_drop]; omega)
    rw [frame, hbody, be32_ofBe32 htake, ← List.drop_drop, List.append_assoc,
      List.take_append_drop, List.take_append_drop]
  · cases h

theorem frames_unframeAll (s : List UInt8) :
    (unframeAll s).1.flatMap frame ++ (unframeAll s).2 = s := by
  induction s using unframeAll.induct with
  | case1 s h => rw [unframeAll_none h, List.flatMap_nil, List.nil_append]
  | case2 s body rest h ih =>
      rw [unframeAll_some h, List.flatMap_cons, List.append_assoc, ih, frame_unframe h]

theorem unframe_nil : unframe [] = none := rfl

end BitFS.Framing
