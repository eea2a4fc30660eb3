/-
# BundleManifest.Proofs.Text.Utf8 — no byte is lost in decoding

`encode_decode` says that the text of any bytes is encoded as these bytes again, well-formed or
not, so that decoding is injective. It rests on one equation for each length of a scalar value.
Encoding goes code point by code point: it distributes over appending (`encode_append_iff`), and the
bytes below 0x80 of an encoding are exactly its code points below 0x80 (`mem_encode_iff`). A name
without a slash therefore has a text without a slash, and the other way round.
-/
import BundleManifest.Text.Utf8
import Mathlib

namespace BundleManifest.Utf8

/-! ## Scalar values and escaped bytes -/

theorem encodePoint_ofNat {n : Nat} (h : n < 0x110000) (hs : n < 0xD800 ∨ 0xDFFF < n) :
    encodePoint (.ofNat n) = some (encodeScalar (.ofNat n)) := by
  have hval : (CodePoint.ofNat n).val = n := CodePoint.val_ofNat h
  have he : isEscaped (.ofNat n) = false := by
    simp only [isEscaped, hval, Bool.and_eq_false_iff, decide_eq_false_iff_not]
    omega
  have hn : (CodePoint.ofNat n).isSurrogate = false := by
    simp only [CodePoint.isSurrogate, hval, Bool.and_eq_false_iff, decide_eq_false_iff_not]
    omega
  simp [encodePoint, he, hn]

theorem ofNat_eq {n : Nat} {b : UInt8} (h : n = b.toNat) : UInt8.ofNat n = b := by
  rw [h, UInt8.ofNat_toNat]

theorem encodePoint_escaped {b : UInt8} (h : 0x80 ≤ b.toNat) : encodePoint (escaped b) = some [b] := by
  have hb : b.toNat < 256 := b.toNat_lt
  have hval : (escaped b).val = 0xDC00 + b.toNat := CodePoint.val_ofNat (by omega)
  have he : isEscaped (escaped b) = true := by
    simp only [isEscaped, hval, Bool.and_eq_true, decide_eq_true_eq]
    omega
  simp only [encodePoint, he, if_true, hval]
  rw [ofNat_eq (b := b) (by omega)]

theorem encodePoint_one {b : UInt8} (h : b.toNat < 0x80) :
    encodePoint (.ofNat b.toNat) = some [b] := by
  rw [encodePoint_ofNat (by omega) (by omega), encodeScalar, CodePoint.val_ofNat (by omega)]
  rw [if_pos h, UInt8.ofNat_toNat]

theorem encodePoint_two {b x : UInt8} {n : Nat} (hb : ¬ b.toNat < 0xC2) (hb' : b.toNat < 0xE0)
    (hx : isTail x = true) (hn : n = (b.toNat - 0xC0) * 0x40 + (x.toNat - 0x80)) :
    encodePoint (.ofNat n) = some [b, x] := by
  simp only [isTail, Bool.and_eq_true, decide_eq_true_eq] at hx
  rw [encodePoint_ofNat (by omega) (by omega), encodeScalar, CodePoint.val_ofNat (by omega)]
  rw [if_neg (by omega), if_pos (by omega)]
  rw [ofNat_eq (b := b) (by omega), ofNat_eq (b := x) (by omega)]

/-- The range of the second byte, with the first bytes after which it is narrower. -/
theorem isSecond_iff {b x : UInt8} :
    isSecond b x = true ↔ 0x80 ≤ x.toNat ∧ x.toNat ≤ 0xBF ∧ (b.toNat = 0xE0 → 0xA0 ≤ x.toNat) ∧
      (b.toNat = 0xF0 → 0x90 ≤ x.toNat) ∧ (b.toNat = 0xED → x.toNat ≤ 0x9F) ∧
      (b.toNat = 0xF4 → x.toNat ≤ 0x8F) := by
  simp only [isSecond, Bool.and_eq_true, decide_eq_true_eq]
  (repeat' split) <;> omega

theorem encodePoint_three {b x y : UInt8} {n : Nat} (hb : ¬ b.toNat < 0xE0) (hb' : b.toNat < 0xF0)
    (hx : isSecond b x = true) (hy : isTail y = true)
    (hn : n = (b.toNat - 0xE0) * 0x1000 + (x.toNat - 0x80) * 0x40 + (y.toNat - 0x80)) :
    encodePoint (.ofNat n) = some [b, x, y] := by
  obtain ⟨hx₁, hx₂, hover, -, hsurrogate, -⟩ := isSecond_iff.mp hx
  simp only [isTail, Bool.and_eq_true, decide_eq_true_eq] at hy
  rw [encodePoint_ofNat (by omega) (by omega), encodeScalar, CodePoint.val_ofNat (by omega)]
  rw [if_neg (by omega), if_neg (by omega), if_pos (by omega)]
  rw [ofNat_eq (b := b) (by omega), ofNat_eq (b := x) (by omega), ofNat_eq (b := y) (by omega)]

theorem encodePoint_four {b x y z : UInt8} {n : Nat} (hb : ¬ b.toNat < 0xF0)
    (hb' : b.toNat < 0xF5) (hx : isSecond b x = true) (hy : isTail y = true)
    (hz : isTail z = true)
    (hn : n = (b.toNat - 0xF0) * 0x40000 + (x.toNat - 0x80) * 0x1000 + (y.toNat - 0x80) * 0x40
      + (z.toNat - 0x80)) :
    encodePoint (.ofNat n) = some [b, x, y, z] := by
  obtain ⟨hx₁, hx₂, -, hover, -, hlast⟩ := isSecond_iff.mp hx
  simp only [isTail, Bool.and_eq_true, decide_eq_true_eq] at hy hz
  rw [encodePoint_ofNat (by omega) (by omega), encodeScalar, CodePoint.val_ofNat (by omega)]
  rw [if_neg (by omega), if_neg (by omega), if_neg (by omega)]
  rw [ofNat_eq (b := b) (by omega), ofNat_eq (b := x) (by omega), ofNat_eq (b := y) (by omega),
    ofNat_eq (b := z) (by omega)]

/-- A scalar value is encoded as the bytes that it was read from. -/
theorem encodePoint_of_scalarAt {b : UInt8} {rest : Bytes} {c : CodePoint} {taken : Nat}
    (h : scalarAt b rest = .ok (c, taken)) : encodePoint c = some (b :: rest.take taken) := by
  unfold scalarAt at h
  extract_lets n at h
  -- one case for each class of first bytes, and in it one for each way the bytes may run out
  by_cases hb₁ : b.toNat < 0x80
  · rw [if_pos hb₁] at h
    obtain ⟨rfl, rfl⟩ := Prod.mk.inj (Except.ok.inj h)
    exact encodePoint_one hb₁
  by_cases hb₂ : b.toNat < 0xC2
  · rw [if_neg hb₁, if_pos hb₂] at h
    cases h
  by_cases hb₃ : b.toNat < 0xE0
  · rw [if_neg hb₁, if_neg hb₂, if_pos hb₃] at h
    match rest with
    | x :: rest =>
      by_cases hx : isTail x = true
      · simp only [hx, if_true] at h
        obtain ⟨rfl, rfl⟩ := Prod.mk.inj (Except.ok.inj h)
        exact encodePoint_two hb₂ hb₃ hx rfl
      · simp [hx] at h
  by_cases hb₄ : b.toNat < 0xF0
  · rw [if_neg hb₁, if_neg hb₂, if_neg hb₃, if_pos hb₄] at h
    match rest with
    | [x] => by_cases hx : isSecond b x = true <;> simp [hx] at h
    | x :: y :: rest =>
      by_cases hx : isSecond b x = true
      · by_cases hy : isTail y = true
        · simp only [hx, hy, Bool.not_true, Bool.false_eq_true, if_false] at h
          obtain ⟨rfl, rfl⟩ := Prod.mk.inj (Except.ok.inj h)
          exact encodePoint_three hb₃ hb₄ hx hy rfl
        · simp [hx, hy] at h
      · simp [hx] at h
  by_cases hb₅ : b.toNat < 0xF5
  · rw [if_neg hb₁, if_neg hb₂, if_neg hb₃, if_neg hb₄, if_pos hb₅] at h
    match rest with
    | [x] => by_cases hx : isSecond b x = true <;> simp [hx] at h
    | [x, y] =>
      by_cases hx : isSecond b x = true <;> by_cases hy : isTail y = true <;> simp [hx, hy] at h
    | x :: y :: z :: rest =>
      by_cases hx : isSecond b x = true
      · by_cases hy : isTail y = true
        · by_cases hz : isTail z = true
          · simp only [hx, hy, hz, Bool.not_true, Bool.false_eq_true, if_false] at h
            obtain ⟨rfl, rfl⟩ := Prod.mk.inj (Except.ok.inj h)
            exact encodePoint_four hb₄ hb₅ hx hy hz rfl
          · simp [hx, hy, hz] at h
        · simp [hx, hy] at h
      · simp [hx] at h
  · rw [if_neg hb₁, if_neg hb₂, if_neg hb₃, if_neg hb₄, if_neg hb₅] at h
    cases h

/-- Only bytes of 0x80 or more cannot be read. -/
theorem le_of_scalarAt_error {b : UInt8} {rest : Bytes} {e : Fault × Nat}
    (h : scalarAt b rest = .error e) : 0x80 ≤ b.toNat := by
  refine Nat.le_of_not_lt fun hb => ?_
  unfold scalarAt at h
  rw [if_pos hb] at h
  cases h

/-! ## Encoding goes code point by code point -/

theorem encodeFrom_cons_iff {position : Nat} {c : CodePoint} {t : Text} {bytes : Bytes} :
    encodeFrom position (c :: t) = .ok bytes ↔
      ∃ head tail, encodePoint c = some head ∧ encodeFrom (position + 1) t = .ok tail ∧
        bytes = head ++ tail := by
  simp only [encodeFrom]
  cases hc : encodePoint c with
  | none => simp
  | some head =>
    cases ht : encodeFrom (position + 1) t with
    | error u => simp [Except.map]
    | ok tail => simp [Except.map, eq_comm]

/-- The position only matters to faults. -/
theorem encodeFrom_ok_of_ok {p q : Nat} {t : Text} {bytes : Bytes}
    (h : encodeFrom p t = .ok bytes) : encodeFrom q t = .ok bytes := by
  induction t generalizing p q bytes with
  | nil => exact h
  | cons c t ih =>
    obtain ⟨head, tail, hc, ht, rfl⟩ := encodeFrom_cons_iff.mp h
    exact encodeFrom_cons_iff.mpr ⟨head, tail, hc, ih ht, rfl⟩

@[simp] theorem encode_nil : encode [] = .ok [] := rfl

theorem encode_cons_iff {c : CodePoint} {t : Text} {bytes : Bytes} :
    encode (c :: t) = .ok bytes ↔
      ∃ head tail, encodePoint c = some head ∧ encode t = .ok tail ∧ bytes = head ++ tail := by
  rw [encode, encodeFrom_cons_iff]
  constructor
  · rintro ⟨head, tail, hc, ht, rfl⟩
    exact ⟨head, tail, hc, encodeFrom_ok_of_ok ht, rfl⟩
  · rintro ⟨head, tail, hc, ht, rfl⟩
    exact ⟨head, tail, hc, encodeFrom_ok_of_ok ht, rfl⟩

/-- A text is encoded part by part. -/
theorem encode_append_iff {t u : Text} {bytes : Bytes} :
    encode (t ++ u) = .ok bytes ↔
      ∃ first second, encode t = .ok first ∧ encode u = .ok second ∧ bytes = first ++ second := by
  induction t generalizing bytes with
  | nil => simp [eq_comm]
  | cons c t ih =>
    simp only [List.cons_append, encode_cons_iff, ih]
    constructor
    · rintro ⟨head, _, hc, ⟨first, second, ht, hu, rfl⟩, rfl⟩
      exact ⟨head ++ first, second, ⟨head, first, hc, ht, rfl⟩, hu, by simp⟩
    · rintro ⟨_, second, ⟨head, first, hc, ht, rfl⟩, hu, rfl⟩
      exact ⟨head, first ++ second, hc, ⟨first, second, ht, hu, rfl⟩, by simp⟩

/-! ## Decoding loses nothing -/

/-- The text of any bytes is encoded as these bytes. -/
theorem encode_decode (bytes : Bytes) : encode (decode bytes) = .ok bytes := by
  fun_induction decode bytes with
  | case1 => rfl
  | case2 b rest c taken h ih =>
    exact encode_cons_iff.mpr
      ⟨b :: rest.take taken, rest.drop taken, encodePoint_of_scalarAt h, ih, by simp⟩
  | case3 b rest e h ih =>
    exact encode_cons_iff.mpr
      ⟨[b], rest, encodePoint_escaped (le_of_scalarAt_error h), ih, rfl⟩

/-- Different bytes have different texts. -/
theorem decode_injective : Function.Injective decode := fun a b h =>
  Except.ok.inj ((encode_decode a).symm.trans (h ▸ encode_decode b))

@[simp] theorem decode_inj {a b : Bytes} : decode a = decode b ↔ a = b :=
  ⟨fun h => decode_injective h, congrArg decode⟩

@[simp] theorem decode_eq_nil_iff {bytes : Bytes} : decode bytes = [] ↔ bytes = [] := by
  rw [← decode_inj (b := []), show decode [] = [] by rw [decode]]

/-! ## Bytes below 0x80 -/

/-- A code point below 0x80 is one byte, and no other code point has this byte. -/
theorem mem_encodePoint_iff {c : CodePoint} {head : Bytes} (h : encodePoint c = some head)
    {b : UInt8} (hb : b.toNat < 0x80) : b ∈ head ↔ c.val = b.toNat := by
  have hc : c.val < 0x110000 := c.isLt
  -- every byte of a longer sequence is 0x80 or more, so it is not `b`
  have hmem : ∀ {n : Nat}, n < 256 → (b = UInt8.ofNat n ↔ n = b.toNat) := by
    intro n hn
    rw [← UInt8.toNat_inj, UInt8.toNat_ofNat', Nat.mod_eq_of_lt hn, eq_comm]
  unfold encodePoint at h
  split at h
  · next he =>
    simp only [isEscaped, Bool.and_eq_true, decide_eq_true_eq] at he
    cases h
    rw [List.mem_singleton, hmem (by omega)]
    omega
  split at h
  · cases h
  cases h
  unfold encodeScalar
  extract_lets n
  have hn : n = c.val := rfl
  split
  · rw [List.mem_singleton, hmem (by omega)]
  split
  · simp only [List.mem_cons, List.not_mem_nil, or_false]
    rw [hmem (by omega), hmem (by omega)]
    omega
  split
  · simp only [List.mem_cons, List.not_mem_nil, or_false]
    rw [hmem (by omega), hmem (by omega), hmem (by omega)]
    omega
  · simp only [List.mem_cons, List.not_mem_nil, or_false]
    rw [hmem (by omega), hmem (by omega), hmem (by omega), hmem (by omega)]
    omega

/-- The bytes below 0x80 of an encoding are the code points below 0x80 of the text. -/
theorem mem_encode_iff {t : Text} {bytes : Bytes} (h : encode t = .ok bytes) {b : UInt8}
    (hb : b.toNat < 0x80) : b ∈ bytes ↔ CodePoint.ofNat b.toNat ∈ t := by
  induction t generalizing bytes with
  | nil =>
    cases h
    simp
  | cons c t ih =>
    obtain ⟨head, tail, hc, ht, rfl⟩ := encode_cons_iff.mp h
    rw [List.mem_append, List.mem_cons, mem_encodePoint_iff hc hb, ih ht, Fin.ext_iff,
      CodePoint.val_ofNat (by omega), eq_comm]

theorem mem_decode_iff {bytes : Bytes} {b : UInt8} (hb : b.toNat < 0x80) :
    CodePoint.ofNat b.toNat ∈ decode bytes ↔ b ∈ bytes :=
  (mem_encode_iff (encode_decode bytes) hb).symm

/-! ## Lengths -/

theorem encodePoint_ne_nil {c : CodePoint} {head : Bytes} (h : encodePoint c = some head) :
    head ≠ [] := by
  have hscalar : encodeScalar c ≠ [] := by
    unfold encodeScalar
    extract_lets n
    (repeat' split) <;> exact List.cons_ne_nil _ _
  unfold encodePoint at h
  split at h
  · cases h
    exact List.cons_ne_nil _ _
  split at h
  · cases h
  · cases h
    exact hscalar

/-- Every code point takes a byte at least. -/
theorem length_le_of_encode {t : Text} {bytes : Bytes} (h : encode t = .ok bytes) :
    t.length ≤ bytes.length := by
  induction t generalizing bytes with
  | nil => exact Nat.zero_le _
  | cons c t ih =>
    obtain ⟨head, tail, hc, ht, rfl⟩ := encode_cons_iff.mp h
    have hhead : 0 < head.length := List.length_pos_iff.mpr (encodePoint_ne_nil hc)
    have htail := ih ht
    simp only [List.length_cons, List.length_append]
    omega

theorem ne_nil_of_encode {t : Text} {bytes : Bytes} (h : encode t = .ok bytes) (ht : t ≠ []) :
    bytes ≠ [] := by
  rintro rfl
  exact ht (List.length_eq_zero_iff.mp (Nat.le_zero.mp (length_le_of_encode h)))

end BundleManifest.Utf8
