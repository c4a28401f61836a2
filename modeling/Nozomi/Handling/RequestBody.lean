import Nozomi.Handling.HTTPHandler

/-! The text of a request body that arrived in any number of chains. It is put
together at an offset of 32 bits, which goes wrong in bodies of 2 GiB. -/
namespace Nozomi

open Text

theorem insertPosition_small {n : Nat} (h : n % 2 ^ 32 < 2 ^ 31) :
    insertPosition (BitVec.ofNat 32 n) = n % 2 ^ 32 := by
  have hWrap : BitVec.ofNat 32 n = BitVec.ofNat 32 (n % 2 ^ 32) := by
    apply BitVec.eq_of_toNat_eq
    simp
  rw [hWrap, insertPosition_ofNat h]

/-- A negative offset is converted to a position of at least 2^63. -/
theorem insertPosition_large {n : Nat} (h : 2 ^ 31 ≤ n % 2 ^ 32) :
    2 ^ 63 ≤ insertPosition (BitVec.ofNat 32 n) := by
  have hMsb : (BitVec.ofNat 32 n).msb = true := by
    rw [BitVec.msb_eq_true_iff_two_mul_ge, BitVec.toNat_ofNat]
    omega
  rw [insertPosition, BitVec.toNat_signExtend, hMsb, BitVec.toNat_setWidth, BitVec.toNat_ofNat]
  simp only [if_true]
  omega

/-- The text after one round of the loop. -/
def insertAt (ret buf : Bytes) : Bytes :=
  ret.take (ret.length % 2 ^ 32) ++ buf ++ ret.drop (ret.length % 2 ^ 32)

theorem length_insertAt (ret buf : Bytes) : (insertAt ret buf).length = ret.length + buf.length := by
  simp only [insertAt, List.length_append, List.length_take, List.length_drop]
  have hWrap := Nat.mod_le ret.length (2 ^ 32)
  omega

/-- The bytes that were there keep their order. -/
theorem sublist_insertAt (ret buf : Bytes) : ret.Sublist (insertAt ret buf) := by
  have hAll : (ret.take (ret.length % 2 ^ 32) ++ ret.drop (ret.length % 2 ^ 32)).Sublist
      (insertAt ret buf) :=
    (List.sublist_append_left _ buf).append (List.Sublist.refl _)
  rwa [List.take_append_drop] at hAll

theorem insertAt_nil (ret : Bytes) : insertAt ret [] = ret := by
  rw [insertAt, List.append_nil, List.take_append_drop]

theorem insertAt_short {ret : Bytes} (h : ret.length < 2 ^ 31) (buf : Bytes) :
    insertAt ret buf = ret ++ buf := by
  have hWrap : ret.length % 2 ^ 32 = ret.length := Nat.mod_eq_of_lt (by omega)
  rw [insertAt, hWrap, List.take_length, List.drop_length, List.append_nil]

/-- One round: the offset is the length so far in 32 bits, which throws where it
is negative. -/
theorem toStringLoop_cons (buf : Bytes) (rest : List Bytes) {ret : Bytes}
    (hSize : ret.length < 2 ^ 63) :
    toStringLoop (buf :: rest) ret (BitVec.ofNat 32 ret.length) =
      if ret.length % 2 ^ 32 < 2 ^ 31 then
        toStringLoop rest (insertAt ret buf) (BitVec.ofNat 32 (insertAt ret buf).length)
      else .error .std := by
  rw [toStringLoop]
  by_cases hStart : ret.length % 2 ^ 32 < 2 ^ 31
  · have hPosition := insertPosition_small hStart
    have hInside : ¬ret.length < ret.length % 2 ^ 32 := Nat.not_lt.mpr (Nat.mod_le _ _)
    rw [if_pos hStart, hPosition, if_neg hInside, advance_ofNat, length_insertAt, insertAt]
  · have hPosition := insertPosition_large (Nat.not_lt.mp hStart)
    rw [if_neg hStart, if_pos (by omega)]

theorem perm_insertAt (ret buf : Bytes) : (insertAt ret buf).Perm (ret ++ buf) := by
  have hSwap : (insertAt ret buf).Perm
      (ret.take (ret.length % 2 ^ 32) ++ (ret.drop (ret.length % 2 ^ 32) ++ buf)) := by
    rw [insertAt, List.append_assoc]
    exact List.perm_append_comm.append_left _
  rwa [← List.append_assoc, List.take_append_drop] at hSwap

/-- Whatever the loop makes of the segments, it has all their bytes, and it keeps
the order of the text that it started with. -/
theorem toStringLoop_ok {segments : List Bytes} {ret text : Bytes}
    (hSize : ret.length + segments.flatten.length < 2 ^ 63)
    (h : toStringLoop segments ret (BitVec.ofNat 32 ret.length) = .ok text) :
    ret.Sublist text ∧ text.Perm (ret ++ segments.flatten) := by
  induction segments generalizing ret with
  | nil =>
      obtain rfl := Except.ok.inj h
      simp
  | cons buf rest ih =>
      simp only [List.flatten_cons, List.length_append] at hSize
      rw [toStringLoop_cons buf rest (by omega)] at h
      split at h
      · obtain ⟨hSublist, hPerm⟩ := ih (by rw [length_insertAt]; omega) h
        refine ⟨(sublist_insertAt ret buf).trans hSublist, ?_⟩
        rw [List.flatten_cons, ← List.append_assoc]
        exact hPerm.trans ((perm_insertAt ret buf).append_right _)
      · cases h

/-- The loop over segments in two parts. -/
theorem toStringLoop_append (before after : List Bytes) {ret : Bytes}
    (hSize : ret.length + before.flatten.length < 2 ^ 63) :
    toStringLoop (before ++ after) ret (BitVec.ofNat 32 ret.length) =
      (toStringLoop before ret (BitVec.ofNat 32 ret.length) >>= fun text =>
        toStringLoop after text (BitVec.ofNat 32 text.length)) := by
  induction before generalizing ret with
  | nil => rfl
  | cons buf before ih =>
      simp only [List.flatten_cons, List.length_append] at hSize
      rw [List.cons_append, toStringLoop_cons buf _ (by omega), toStringLoop_cons buf _ (by omega)]
      split
      · exact ih (by rw [length_insertAt]; omega)
      · rfl

/-- No segment begins where the offset would be negative. -/
def Starts (sizes : List Nat) : Prop :=
  ∀ before size after, sizes = before ++ size :: after → before.sum % 2 ^ 32 < 2 ^ 31

/-- Every segment that is not empty begins below 2 GiB, and an empty one begins
where the offset is not negative. -/
def Fits (sizes : List Nat) : Prop :=
  ∀ before size after, sizes = before ++ size :: after →
    before.sum % 2 ^ 32 < 2 ^ 31 ∧ (0 < size → before.sum < 2 ^ 31)

theorem length_flatten (segments : List Bytes) :
    segments.flatten.length = (segments.map List.length).sum := List.length_flatten

/-- A part of the sizes belongs to a part of the segments. -/
theorem sizes_split {segments : List Bytes} {before after : List Nat} {size : Nat}
    (h : segments.map List.length = before ++ size :: after) :
    ∃ first buf rest, segments = first ++ buf :: rest ∧ first.map List.length = before ∧
      buf.length = size := by
  obtain ⟨first, second, rfl, hFirst, hSecond⟩ := List.map_eq_append_iff.mp h
  obtain ⟨buf, rest, rfl, hBuf, _⟩ := List.map_eq_cons_iff.mp hSecond
  exact ⟨first, buf, rest, rfl, hFirst, hBuf⟩

/-- What comes after the first segments, which are read on their own. Nothing in the
loop looks back at the segments before. -/
theorem toStringLoop_split {first : List Bytes} (buf : Bytes) (rest : List Bytes)
    (hSize : (first ++ buf :: rest).flatten.length < 2 ^ 63) {text : Bytes}
    (h : toStringLoop (first ++ buf :: rest) [] 0 = .ok text) :
    ∃ middle, middle.Perm first.flatten ∧
      first.flatten.length % 2 ^ 32 < 2 ^ 31 ∧ (insertAt middle buf).Sublist text := by
  simp only [List.flatten_append, List.flatten_cons, List.length_append] at hSize
  have hFirst : ([] : Bytes).length + first.flatten.length < 2 ^ 63 := by
    rw [List.length_nil]
    omega
  have hParts := toStringLoop_append first (buf :: rest) hFirst
  obtain ⟨middle, hMiddle, hRest⟩ := (Throws.bind_eq_ok_iff _ _ _).mp (hParts.symm.trans h)
  have hPerm : middle.Perm first.flatten := (toStringLoop_ok hFirst hMiddle).2
  have hLength := hPerm.length_eq
  rw [toStringLoop_cons buf rest (by omega), hLength] at hRest
  by_cases hStart : first.flatten.length % 2 ^ 32 < 2 ^ 31
  · rw [if_pos hStart] at hRest
    exact ⟨middle, hPerm, hStart, (toStringLoop_ok (by rw [length_insertAt]; omega) hRest).1⟩
  · rw [if_neg hStart] at hRest
    cases hRest

/-- The loop does not throw if every segment begins at a counter that is not
negative as a signed integer. The induction is over the segments, with the text so
far. -/
theorem toStringLoop_returns {segments : List Bytes} {ret : Bytes}
    (hSize : ret.length + segments.flatten.length < 2 ^ 63)
    (hStarts : ∀ before size after, segments.map List.length = before ++ size :: after →
      (ret.length + before.sum) % 2 ^ 32 < 2 ^ 31) :
    ∃ text, toStringLoop segments ret (BitVec.ofNat 32 ret.length) = .ok text := by
  induction segments generalizing ret with
  | nil => exact ⟨ret, rfl⟩
  | cons buf rest ih =>
      simp only [List.flatten_cons, List.length_append] at hSize
      have hHere : ret.length % 2 ^ 32 < 2 ^ 31 := hStarts [] buf.length _ rfl
      rw [toStringLoop_cons buf rest (by omega), if_pos hHere]
      apply ih
      · rw [length_insertAt]
        omega
      · intro before size after hSizes
        have hStart := hStarts (buf.length :: before) size after (by rw [List.map_cons, hSizes]; rfl)
        rwa [List.sum_cons, ← Nat.add_assoc, ← length_insertAt] at hStart

/-- The loop throws exactly at a segment with a negative offset. -/
theorem toStringLoop_returns_iff (segments : List Bytes)
    (hSize : segments.flatten.length < 2 ^ 63) :
    (∃ text, toStringLoop segments [] 0 = .ok text) ↔ Starts (segments.map List.length) := by
  constructor
  · rintro ⟨text, hText⟩ before size after hSizes
    obtain ⟨first, buf, rest, rfl, rfl, _⟩ := sizes_split hSizes
    obtain ⟨_, _, hStart, _⟩ := toStringLoop_split buf rest hSize hText
    rwa [length_flatten] at hStart
  · intro hStarts
    have hAll : ([] : Bytes).length + segments.flatten.length < 2 ^ 63 := by
      rwa [List.length_nil, Nat.zero_add]
    refine toStringLoop_returns hAll ?_
    intro before size after hSizes
    rw [List.length_nil, Nat.zero_add]
    exact hStarts before size after hSizes

/-- Segments that fit are put together in their order, since each is inserted at the
end of what is there. -/
theorem toStringLoop_fits {segments : List Bytes} {ret : Bytes}
    (hSize : ret.length + segments.flatten.length < 2 ^ 63)
    (hFits : ∀ before size after, segments.map List.length = before ++ size :: after →
      (ret.length + before.sum) % 2 ^ 32 < 2 ^ 31 ∧ (0 < size → ret.length + before.sum < 2 ^ 31)) :
    toStringLoop segments ret (BitVec.ofNat 32 ret.length) = .ok (ret ++ segments.flatten) := by
  induction segments generalizing ret with
  | nil => simp [toStringLoop]
  | cons buf rest ih =>
      simp only [List.flatten_cons, List.length_append] at hSize
      have hHere : ret.length % 2 ^ 32 < 2 ^ 31 ∧ (0 < buf.length → ret.length < 2 ^ 31) :=
        hFits [] buf.length _ rfl
      have hInsert : insertAt ret buf = ret ++ buf := by
        cases buf with
        | nil => rw [insertAt_nil, List.append_nil]
        | cons c buf => exact insertAt_short (hHere.2 (by simp)) _
      rw [toStringLoop_cons buf rest (by omega), if_pos hHere.1, hInsert, List.flatten_cons,
        ← List.append_assoc]
      apply ih
      · rw [List.length_append]
        omega
      · intro before size after hSizes
        have hBoth := hFits (buf.length :: before) size after (by rw [List.map_cons, hSizes]; rfl)
        rwa [List.sum_cons, ← Nat.add_assoc, ← List.length_append] at hBoth

/-- A segment of ones that begins behind 2 GiB of zeros is not read in its place.
Where the loop does not throw, it inserts the ones before some of the zeros. -/
theorem toStringLoop_misplaces {zeros ones : Nat} {first rest : List Bytes} {buf : Bytes}
    (hSize : (first ++ buf :: rest).flatten.length < 2 ^ 63) (hNil : buf ≠ [])
    (hFirst : first.flatten = List.replicate zeros 0)
    (hRest : buf ++ rest.flatten = List.replicate ones 1)
    (hText : toStringLoop (first ++ buf :: rest) [] 0 = .ok (first ++ buf :: rest).flatten) :
    zeros < 2 ^ 31 := by
  obtain ⟨middle, hPerm, hStart, hSublist⟩ := toStringLoop_split buf rest hSize hText
  rw [hFirst, List.perm_replicate] at hPerm
  obtain rfl := hPerm
  rw [hFirst, List.length_replicate] at hStart
  by_contra hLate
  have hOne : (1 : Byte) ∈ buf := by
    obtain ⟨c, hMem⟩ := List.exists_mem_of_ne_nil buf hNil
    have hReplicate : c ∈ List.replicate ones (1 : Byte) := hRest ▸ List.mem_append_left _ hMem
    rwa [List.eq_of_mem_replicate hReplicate] at hMem
  have hZero : (0 : Byte) ∈ (List.replicate zeros (0 : Byte)).drop (zeros % 2 ^ 32) := by
    rw [List.drop_replicate]
    exact List.mem_replicate.mpr ⟨by omega, rfl⟩
  have hInverted : [1, 0].Sublist (insertAt (List.replicate zeros 0) buf) := by
    rw [insertAt, List.length_replicate]
    exact List.Sublist.append (List.singleton_sublist.mpr (List.mem_append_right _ hOne))
      (List.singleton_sublist.mpr hZero)
  have hOrdered : ((first ++ buf :: rest).flatten).Pairwise (· ≤ ·) := by
    rw [List.flatten_append, List.flatten_cons, hFirst, hRest, List.pairwise_append]
    refine ⟨List.pairwise_replicate.mpr (Or.inr (by decide)),
      List.pairwise_replicate.mpr (Or.inr (by decide)), ?_⟩
    intro c hc d hd
    rw [List.eq_of_mem_replicate hc, List.eq_of_mem_replicate hd]
    decide
  exact absurd (hOrdered.sublist (hInverted.trans hSublist)) (by decide)

/-- A second segment after one of 2 GiB is put at a negative offset. -/
theorem toStringLoop_negative {first : Bytes} (hFirst : first.length = 2 ^ 31) (buf : Bytes) :
    toStringLoop [first, buf] [] 0 = .error .std := by
  have hStart : ¬first.length % 2 ^ 32 < 2 ^ 31 := by omega
  have hInsert : insertAt [] first = first := insertAt_short (by decide) first
  have hRound : toStringLoop [first, buf] [] 0 =
      toStringLoop [buf] first (BitVec.ofNat 32 first.length) := by
    have hCons := @toStringLoop_cons first [buf] [] (by decide)
    rwa [hInsert] at hCons
  rw [hRound, toStringLoop_cons buf [] (by omega), if_neg hStart]

namespace HTTPHandler

/-- A handler that has received a request, with its body in some chains. -/
def received (headers : HTTPMessage) (deliveries : List IOBuf) : HTTPHandler :=
  (deliveries.foldl onBody (create.onRequest headers)).onEOM headers

/-- The text that the user's handler reads as the body of its request. -/
def bodyText (headers : HTTPMessage) (deliveries : List IOBuf) : Option (Throws Bytes) :=
  (received headers deliveries).request.map HTTPRequest.getBodyAsString

/-- How a body is cut, whatever its bytes are. -/
def segmentSizes (deliveries : List IOBuf) : List Nat :=
  (deliveries.flatMap IOBuf.segments).map List.length

/-- The chain of the handler grows by the segments of each delivery, in their order. -/
theorem segments_foldl_onBody (deliveries : List IOBuf) (handler : HTTPHandler) :
    (deliveries.foldl onBody handler).body.segments =
      handler.body.segments ++ deliveries.flatMap IOBuf.segments := by
  induction deliveries generalizing handler with
  | nil => simp
  | cons data deliveries ih =>
      rw [List.foldl_cons, ih, List.flatMap_cons, ← List.append_assoc]
      rfl

/-- The body that the handler was created with is empty and adds nothing. -/
theorem bodyText_eq (headers : HTTPMessage) (deliveries : List IOBuf) :
    bodyText headers deliveries = some (toStringLoop (deliveries.flatMap IOBuf.segments) [] 0) := by
  have hSegments : (deliveries.foldl onBody (create.onRequest headers)).body.segments =
      [] :: deliveries.flatMap IOBuf.segments := segments_foldl_onBody deliveries _
  have hRead : bodyText headers deliveries = some (toStringLoop
      (deliveries.foldl onBody (create.onRequest headers)).body.segments [] 0) := rfl
  rw [hRead, hSegments]
  exact congrArg some (toStringLoop_cons [] _ (by decide))

theorem flatMap_bytes (deliveries : List IOBuf) :
    deliveries.flatMap IOBuf.bytes = (deliveries.flatMap IOBuf.segments).flatten := by
  induction deliveries with
  | nil => rfl
  | cons data deliveries ih =>
      rw [List.flatMap_cons, List.flatMap_cons, List.flatten_append, ih, IOBuf.bytes]

theorem segments_copyBuffer (segments : List Bytes) :
    (segments.map IOBuf.copyBuffer).flatMap IOBuf.segments = segments := by
  induction segments with
  | nil => rfl
  | cons segment segments ih =>
      rw [List.map_cons, List.flatMap_cons, ih]
      rfl

/-- Segments of one byte value, with given sizes. -/
def filled (value : Byte) (sizes : List Nat) : List Bytes :=
  sizes.map fun size => List.replicate size value

theorem flatten_filled (value : Byte) (sizes : List Nat) :
    (filled value sizes).flatten = List.replicate sizes.sum value := by
  induction sizes with
  | nil => rfl
  | cons size sizes ih =>
      simp only [filled, List.map_cons, List.flatten_cons, List.sum_cons] at ih ⊢
      rw [ih, List.replicate_append_replicate]

theorem sizes_filled (value : Byte) (sizes : List Nat) :
    (filled value sizes).map List.length = sizes := by
  simp [filled, Function.comp_def]

/-- A cut that puts every body together must fit: otherwise there are bytes for
which it does not. -/
theorem fits_of_exact {headers : HTTPMessage} {sizes : List Nat} (hSize : sizes.sum < 2 ^ 63)
    (hExact : ∀ deliveries, segmentSizes deliveries = sizes →
      bodyText headers deliveries = some (.ok (deliveries.flatMap IOBuf.bytes))) : Fits sizes := by
  have hSegments : ∀ segments : List Bytes, segments.map List.length = sizes →
      toStringLoop segments [] 0 = .ok segments.flatten := by
    intro segments hSizes
    have hText := hExact (segments.map IOBuf.copyBuffer)
      (by rw [segmentSizes, segments_copyBuffer, hSizes])
    rw [bodyText_eq, flatMap_bytes, segments_copyBuffer] at hText
    exact Option.some.inj hText
  have hLength : ∀ segments : List Bytes, segments.map List.length = sizes →
      segments.flatten.length < 2 ^ 63 := by
    rintro segments rfl
    rwa [length_flatten]
  rintro before size after rfl
  have hStarts : Starts (before ++ size :: after) := by
    have hSizes := sizes_filled 0 (before ++ size :: after)
    have hReturns := (toStringLoop_returns_iff _ (hLength _ hSizes)).mp ⟨_, hSegments _ hSizes⟩
    rwa [hSizes] at hReturns
  refine ⟨hStarts before size after rfl, fun hNonempty => ?_⟩
  have hSizes : (filled 0 before ++ List.replicate size 1 :: filled 1 after).map List.length =
      before ++ size :: after := by
    rw [List.map_append, List.map_cons, sizes_filled, sizes_filled, List.length_replicate]
  have hOnes : List.replicate size 1 ++ (filled 1 after).flatten =
      List.replicate (size + after.sum) 1 := by
    rw [flatten_filled, List.replicate_append_replicate]
  exact toStringLoop_misplaces (hLength _ hSizes) (by simp; omega) (flatten_filled 0 before) hOnes
    (hSegments _ hSizes)

/-- Every body that is cut into segments of some sizes is put together exactly if
these fit, and reading it does not throw exactly if no segment begins where the
offset is negative. -/
theorem bodyText_iff (headers : HTTPMessage) {sizes : List Nat} (hSize : sizes.sum < 2 ^ 63) :
    ((∀ deliveries, segmentSizes deliveries = sizes →
        bodyText headers deliveries = some (.ok (deliveries.flatMap IOBuf.bytes))) ↔ Fits sizes) ∧
      ∀ deliveries, segmentSizes deliveries = sizes →
        ((∃ text, bodyText headers deliveries = some (.ok text)) ↔ Starts sizes) := by
  refine ⟨⟨fits_of_exact hSize, ?_⟩, ?_⟩
  · rintro hFits deliveries rfl
    rw [segmentSizes, ← length_flatten] at hSize
    rw [bodyText_eq, flatMap_bytes]
    apply congrArg some
    have hAll : ([] : Bytes).length + (deliveries.flatMap IOBuf.segments).flatten.length < 2 ^ 63 := by
      rwa [List.length_nil, Nat.zero_add]
    refine toStringLoop_fits hAll ?_
    intro before size after hSizes
    rw [List.length_nil, Nat.zero_add]
    exact hFits before size after hSizes
  · rintro deliveries rfl
    rw [segmentSizes, ← length_flatten] at hSize
    rw [segmentSizes, ← toStringLoop_returns_iff _ hSize, bodyText_eq]
    simp

/-- A chain with empty segments, and two more chains. -/
theorem bodyText_example :
    bodyText ⟨some .post, ascii "/", []⟩
      [⟨[], [ascii "ab", []]⟩, ⟨ascii "c", []⟩, ⟨[], [ascii "d"]⟩] = some (.ok (ascii "abcd")) := by
  have hFits : Fits [0, 2, 0, 1, 0, 1] := by
    intro before size after hSizes
    have hSum := congrArg List.sum hSizes
    rw [List.sum_append] at hSum
    simp only [List.sum_cons, List.sum_nil] at hSum
    omega
  exact (bodyText_iff ⟨some .post, ascii "/", []⟩ (by decide)).1.mpr hFits _ rfl

/-- A chain of 2 GiB, and one more byte. -/
theorem bodyText_throws :
    bodyText ⟨some .post, ascii "/", []⟩
      [IOBuf.copyBuffer (List.replicate (2 ^ 31) 0x61), IOBuf.copyBuffer (ascii "b")] =
        some (.error .std) := by
  rw [bodyText_eq]
  exact congrArg some (toStringLoop_negative List.length_replicate (ascii "b"))

end HTTPHandler

end Nozomi
