/-
# BundleManifest.Proofs.Text.Pieces — a text is cut where its bytes are cut

A byte below 0x80 belongs to no longer sequence: what stands before it is decoded as if it stood
alone, well-formed or not, and decoding starts anew behind it (`decode_append`). A name that is cut off in
the middle of a sequence therefore never takes the slash or the line break after it with it, and the
pieces of a text are the texts of the pieces of its bytes (`cut_decode`).
-/
import BundleManifest.Proofs.Text.Utf8

namespace BundleManifest

/-! ## The first and the last piece -/

/-- The first piece is empty where nothing stands before the first separator. -/
theorem head?_cut_eq_some_nil_iff {α : Type} [DecidableEq α] {sep : α} {t : List α} :
    (cut sep t).head? = some [] ↔ t = [] ∨ t.head? = some sep := by
  cases t with
  | nil => simp [cut]
  | cons c rest =>
    simp only [cut]
    split
    · next h => simp [h]
    · next h => split <;> simp [h]

/-- The last piece is empty where nothing stands behind the last separator. -/
theorem getLast?_cut_eq_some_nil_iff {α : Type} [DecidableEq α] {sep : α} {t : List α} :
    (cut sep t).getLast? = some [] ↔ t = [] ∨ t.getLast? = some sep := by
  constructor
  · intro h
    obtain ⟨front, hfront⟩ := List.getLast?_eq_some_iff.mp h
    have hglue : glue sep (front ++ [[]]) = t := by rw [← hfront, glue_cut]
    by_cases hnil : front = []
    · subst hnil
      exact Or.inl hglue.symm
    · rw [glue_append_singleton sep hnil] at hglue
      exact Or.inr (by rw [← hglue, List.getLast?_concat])
  · rintro (rfl | h)
    · rfl
    · obtain ⟨front, rfl⟩ := List.getLast?_eq_some_iff.mp h
      rw [cut_append]
      show (cut sep front ++ [[]]).getLast? = some []
      exact List.getLast?_concat

theorem head?_glue_cons {α : Type} {sep : α} {first : List α} (h : first ≠ [])
    (pieces : List (List α)) : (glue sep (first :: pieces)).head? = first.head? := by
  cases pieces with
  | nil => rfl
  | cons next pieces =>
    obtain ⟨c, rest, rfl⟩ := List.exists_cons_of_ne_nil h
    rfl

theorem getLast?_glue_append_singleton {α : Type} {sep : α} {last : List α} (h : last ≠ [])
    (pieces : List (List α)) : (glue sep (pieces ++ [last])).getLast? = last.getLast? := by
  by_cases hnil : pieces = []
  · rw [hnil]
    rfl
  · rw [glue_append_singleton sep hnil, List.getLast?_append, List.getLast?_cons,
      List.getLast?_eq_some_getLast h]
    rfl

/-- What is not the separator comes from one of the pieces. -/
theorem mem_glue_iff {α : Type} [DecidableEq α] {sep c : α} (hc : c ≠ sep)
    {pieces : List (List α)} : c ∈ glue sep pieces ↔ ∃ piece ∈ pieces, c ∈ piece := by
  induction pieces with
  | nil => simp [glue]
  | cons piece pieces ih =>
    cases pieces with
    | nil => simp [glue]
    | cons next pieces =>
      rw [glue, List.mem_append, List.mem_cons, ih]
      simp [hc]

/-! ## Replacing -/

theorem Text.replace_of_not_mem {old new : CodePoint} {t : Text} (h : old ∉ t) :
    Text.replace old new t = t := by
  unfold Text.replace
  conv_rhs => rw [← List.map_id t]
  apply List.map_congr_left
  intro c hc
  apply if_neg
  rintro rfl
  exact h hc

theorem Text.old_not_mem_replace {old new : CodePoint} (h : old ≠ new) (t : Text) :
    old ∉ Text.replace old new t := by
  unfold Text.replace
  rw [List.mem_map]
  rintro ⟨c, -, hc⟩
  split at hc
  · exact h hc.symm
  · next hne => exact hne hc

end BundleManifest

namespace BundleManifest.Utf8

/-! ## Reading up to a byte below 0x80 -/

theorem isTail_eq_false {x : UInt8} (hx : x.toNat < 0x80) : isTail x = false := by
  simp only [isTail, Bool.and_eq_false_iff, decide_eq_false_iff_not]
  omega

theorem isSecond_eq_false {x : UInt8} (hx : x.toNat < 0x80) (b : UInt8) : isSecond b x = false := by
  rw [Bool.eq_false_iff]
  intro h
  have hlow := (isSecond_iff.mp h).1
  omega

/-- A byte below 0x80 continues no sequence: what is read before it, and how long an ill-formed piece is,
is the same where the bytes end. Only the fault may be another one. -/
theorem scalarAt_append (b : UInt8) (rest : Bytes) {x : UInt8} (hx : x.toNat < 0x80) (more : Bytes) :
    (scalarAt b (rest ++ x :: more)).mapError Prod.snd = (scalarAt b rest).mapError Prod.snd := by
  have htail := isTail_eq_false hx
  have hsecond := isSecond_eq_false hx b
  unfold scalarAt
  extract_lets n
  by_cases hb₁ : n < 0x80
  · rw [if_pos hb₁, if_pos hb₁]
  rw [if_neg hb₁, if_neg hb₁]
  by_cases hb₂ : n < 0xC2
  · rw [if_pos hb₂, if_pos hb₂]
  rw [if_neg hb₂, if_neg hb₂]
  by_cases hb₃ : n < 0xE0
  · rw [if_pos hb₃, if_pos hb₃]
    match rest with
    | [] => simp [htail, Except.mapError]
    | y :: rest => rfl
  rw [if_neg hb₃, if_neg hb₃]
  by_cases hb₄ : n < 0xF0
  · rw [if_pos hb₄, if_pos hb₄]
    match rest, more with
    | [], [] => simp [hsecond, Except.mapError]
    | [], z :: more => simp [hsecond, Except.mapError]
    | [y], more => cases hy : isSecond b y <;> simp [hy, htail, Except.mapError]
    | y :: z :: rest, more => rfl
  rw [if_neg hb₄, if_neg hb₄]
  by_cases hb₅ : n < 0xF5
  · rw [if_pos hb₅, if_pos hb₅]
    match rest, more with
    | [], [] => simp [hsecond, Except.mapError]
    | [], [z] => simp [hsecond, Except.mapError]
    | [], z :: w :: more => simp [hsecond, Except.mapError]
    | [y], [] => cases hy : isSecond b y <;> simp [hy, htail, Except.mapError]
    | [y], z :: more => cases hy : isSecond b y <;> simp [hy, htail, Except.mapError]
    | [y, z], more =>
      cases hy : isSecond b y <;> cases hz : isTail z <;> simp [hy, hz, htail, Except.mapError]
    | y :: z :: w :: rest, more => rfl
  rw [if_neg hb₅, if_neg hb₅]

theorem scalarAt_append_of_ok {b : UInt8} {rest : Bytes} {c : CodePoint} {taken : Nat}
    (h : scalarAt b rest = .ok (c, taken)) {x : UInt8} (hx : x.toNat < 0x80) (more : Bytes) :
    scalarAt b (rest ++ x :: more) = .ok (c, taken) := by
  have hsame := scalarAt_append b rest hx more
  rw [h] at hsame
  cases hlonger : scalarAt b (rest ++ x :: more) with
  | error e =>
    rw [hlonger] at hsame
    cases hsame
  | ok found =>
    rw [hlonger] at hsame
    exact congrArg Except.ok (Except.ok.inj hsame)

theorem scalarAt_append_of_error {b : UInt8} {rest : Bytes} {fault : Fault} {length : Nat}
    (h : scalarAt b rest = .error (fault, length)) {x : UInt8} (hx : x.toNat < 0x80) (more : Bytes) :
    ∃ fault', scalarAt b (rest ++ x :: more) = .error (fault', length) := by
  have hsame := scalarAt_append b rest hx more
  rw [h] at hsame
  cases hlonger : scalarAt b (rest ++ x :: more) with
  | error e =>
    rw [hlonger] at hsame
    obtain rfl : e.2 = length := Except.error.inj hsame
    exact ⟨e.1, rfl⟩
  | ok found =>
    rw [hlonger] at hsame
    cases hsame

theorem taken_le_of_scalarAt {b : UInt8} {rest : Bytes} {c : CodePoint} {taken : Nat}
    (h : scalarAt b rest = .ok (c, taken)) : taken ≤ rest.length := by
  unfold scalarAt at h
  extract_lets n at h
  (repeat' split at h)
  all_goals simp only [reduceCtorEq, Except.ok.injEq, Prod.mk.injEq] at h
  all_goals simp [← h.2]

/-! ## Pieces -/

theorem decode_cons {x : UInt8} (hx : x.toNat < 0x80) (rest : Bytes) :
    decode (x :: rest) = CodePoint.ofNat x.toNat :: decode rest := by
  have hscalar : scalarAt x rest = .ok (CodePoint.ofNat x.toNat, 0) := by
    unfold scalarAt
    exact if_pos hx
  rw [decode, hscalar]
  rfl

/-- Bytes below 0x80 stand for the characters of the same numbers. -/
theorem decode_of_ascii {bytes : Bytes} (h : ∀ b ∈ bytes, b.toNat < 0x80) :
    decode bytes = bytes.map fun b => CodePoint.ofNat b.toNat := by
  induction bytes with
  | nil => exact decode_eq_nil_iff.mpr rfl
  | cons x rest ih =>
    rw [decode_cons (h x List.mem_cons_self), ih fun b hb => h b (List.mem_cons_of_mem x hb),
      List.map_cons]

/-- Decoding starts anew at every byte below 0x80. -/
theorem decode_append (bytes rest : Bytes) {x : UInt8} (hx : x.toNat < 0x80) :
    decode (bytes ++ x :: rest) = decode bytes ++ CodePoint.ofNat x.toNat :: decode rest := by
  fun_induction decode bytes with
  | case1 => exact decode_cons hx rest
  | case2 b front c taken h ih =>
    rw [List.cons_append, decode, scalarAt_append_of_ok h hx rest]
    show c :: decode ((front ++ x :: rest).drop taken) = c :: (decode (front.drop taken) ++ _)
    rw [List.drop_append_of_le_length (taken_le_of_scalarAt h), ih]
  | case3 b front e h ih =>
    obtain ⟨fault', happend⟩ := scalarAt_append_of_error h hx rest
    rw [List.cons_append, decode, happend]
    show escaped b :: decode (front ++ x :: rest) = escaped b :: (decode front ++ _)
    rw [ih]

/-- The text of pieces that are glued is glued from their texts. -/
theorem decode_glue {b : UInt8} (hb : b.toNat < 0x80) (pieces : List Bytes) :
    decode (glue b pieces) = glue (CodePoint.ofNat b.toNat) (pieces.map decode) := by
  induction pieces with
  | nil => exact decode_eq_nil_iff.mpr rfl
  | cons piece pieces ih =>
    cases pieces with
    | nil => rfl
    | cons next pieces =>
      show decode (piece ++ b :: glue b (next :: pieces)) = _
      rw [decode_append _ _ hb, ih]
      rfl

/-- A text is cut where its bytes are cut. -/
theorem cut_decode {b : UInt8} (hb : b.toNat < 0x80) (bytes : Bytes) :
    cut (CodePoint.ofNat b.toNat) (decode bytes) = (cut b bytes).map decode := by
  have hpieces : ∀ piece ∈ (cut b bytes).map decode, CodePoint.ofNat b.toNat ∉ piece := by
    intro piece hpiece
    obtain ⟨front, hfront, rfl⟩ := List.mem_map.mp hpiece
    rw [mem_decode_iff hb]
    exact not_mem_of_mem_cut hfront
  have hne : (cut b bytes).map decode ≠ [] := by
    simpa using cut_ne_nil b bytes
  calc cut (.ofNat b.toNat) (decode bytes)
      = cut (.ofNat b.toNat) (decode (glue b (cut b bytes))) := by rw [glue_cut]
    _ = cut (.ofNat b.toNat) (glue (.ofNat b.toNat) ((cut b bytes).map decode)) := by
        rw [decode_glue hb]
    _ = (cut b bytes).map decode := cut_glue hne hpieces

/-- A text starts with a character below 0x80 where its bytes do. -/
theorem head?_decode_eq_some_iff {b : UInt8} (hb : b.toNat < 0x80) (bytes : Bytes) :
    (decode bytes).head? = some (CodePoint.ofNat b.toNat) ↔ bytes.head? = some b := by
  by_cases hnil : bytes = []
  · subst hnil
    simp [decode]
  · have htext : decode bytes ≠ [] := fun h => hnil (decode_eq_nil_iff.mp h)
    have hfirst : (cut (CodePoint.ofNat b.toNat) (decode bytes)).head? = some []
        ↔ (cut b bytes).head? = some [] := by
      rw [cut_decode hb, List.head?_map, Option.map_eq_some_iff]
      simp
    rwa [head?_cut_eq_some_nil_iff, head?_cut_eq_some_nil_iff, or_iff_right htext,
      or_iff_right hnil] at hfirst

end BundleManifest.Utf8
