/-
# BundleManifest.Proofs.Text.Marked — texts are decoded as they were encoded

A text without surrogates has an encoding, and it is well-formed: the lossy reading of `decodeLossy`
loses nothing of it (`decodeLossy_of_encode`). A byte order mark before it is no part of the text
(`decodeMarked_mark_append`), and without one the text is read as it is, unless its own first code point
is the mark (`decodeMarked_of_encode`).
-/
import BundleManifest.Proofs.Text.Utf8

namespace BundleManifest

/-- Every code point of a text has an encoding of its own. -/
def Text.IsPlain (t : Text) : Prop := ∀ c ∈ t, c.isSurrogate = false

instance (t : Text) : Decidable t.IsPlain := List.decidableBAll _ t

namespace Utf8

/-! ## Scalar values -/

theorem toNat_ofNat {n : Nat} (h : n < 256) : (UInt8.ofNat n).toNat = n := by
  rw [UInt8.toNat_ofNat']
  exact Nat.mod_eq_of_lt h

theorem isTail_ofNat (n : Nat) : isTail (.ofNat (0x80 + n % 0x40)) = true := by
  unfold isTail
  rw [toNat_ofNat (by omega)]
  simp only [Bool.and_eq_true, decide_eq_true_eq]
  omega

theorem tailBits_ofNat (n : Nat) : tailBits (.ofNat (0x80 + n % 0x40)) = n % 0x40 := by
  unfold tailBits
  rw [toNat_ofNat (by omega)]
  omega

theorem ofNat_val {n : Nat} {c : CodePoint} (h : n = c.val) : CodePoint.ofNat n = c := by
  have hc : c.val < 0x110000 := c.isLt
  apply Fin.ext
  rw [CodePoint.val_ofNat (h ▸ hc), h]

/-- A scalar value is read from the bytes that it is encoded as, whatever follows them. -/
theorem scalarAt_encodeScalar {c : CodePoint} (hc : c.isSurrogate = false) {first : UInt8}
    {more : Bytes} (h : encodeScalar c = first :: more) (rest : Bytes) :
    scalarAt first (more ++ rest) = .ok (c, more.length) := by
  have hlt : c.val < 0x110000 := c.isLt
  have hscalar : c.val < 0xD800 ∨ 0xDFFF < c.val := by
    simp only [CodePoint.isSurrogate, Bool.and_eq_false_iff, decide_eq_false_iff_not] at hc
    omega
  unfold encodeScalar at h
  extract_lets n at h
  have hn : n = c.val := rfl
  unfold scalarAt
  extract_lets b
  by_cases h₁ : n < 0x80
  · rw [if_pos h₁] at h
    obtain ⟨rfl, rfl⟩ := List.cons.inj h
    have hb : b = n := toNat_ofNat (by omega)
    rw [if_pos (by omega), ofNat_val (c := c) (by omega)]
    rfl
  by_cases h₂ : n < 0x800
  · rw [if_neg h₁, if_pos h₂] at h
    obtain ⟨rfl, rfl⟩ := List.cons.inj h
    have hb : b = 0xC0 + n / 0x40 := toNat_ofNat (by omega)
    rw [if_neg (by omega), if_neg (by omega), if_pos (by omega)]
    simp only [List.cons_append, isTail_ofNat, tailBits_ofNat, if_true]
    rw [ofNat_val (c := c) (by omega)]
    rfl
  by_cases h₃ : n < 0x10000
  · rw [if_neg h₁, if_neg h₂, if_pos h₃] at h
    obtain ⟨rfl, rfl⟩ := List.cons.inj h
    have hb : b = 0xE0 + n / 0x1000 := toNat_ofNat (by omega)
    have hsecond : isSecond (.ofNat (0xE0 + n / 0x1000)) (.ofNat (0x80 + n / 0x40 % 0x40)) = true := by
      rw [isSecond_iff, toNat_ofNat (by omega), toNat_ofNat (by omega)]
      omega
    rw [if_neg (by omega), if_neg (by omega), if_neg (by omega), if_pos (by omega)]
    simp only [List.cons_append, hsecond, isTail_ofNat, tailBits_ofNat, Bool.not_true,
      Bool.false_eq_true, if_false]
    rw [ofNat_val (c := c) (by omega)]
    rfl
  · rw [if_neg h₁, if_neg h₂, if_neg h₃] at h
    obtain ⟨rfl, rfl⟩ := List.cons.inj h
    have hb : b = 0xF0 + n / 0x40000 := toNat_ofNat (by omega)
    have hsecond :
        isSecond (.ofNat (0xF0 + n / 0x40000)) (.ofNat (0x80 + n / 0x1000 % 0x40)) = true := by
      rw [isSecond_iff, toNat_ofNat (by omega), toNat_ofNat (by omega)]
      omega
    rw [if_neg (by omega), if_neg (by omega), if_neg (by omega), if_neg (by omega),
      if_pos (by omega)]
    simp only [List.cons_append, hsecond, isTail_ofNat, tailBits_ofNat, Bool.not_true,
      Bool.false_eq_true, if_false]
    rw [ofNat_val (c := c) (by omega)]
    rfl

/-! ## Texts -/

/-- The first scalar value of a text, and the others, are read from its encoding. -/
theorem scalarAt_of_encode {c : CodePoint} (hc : c.isSurrogate = false) {t : Text} {bytes : Bytes}
    (h : encode (c :: t) = .ok bytes) :
    ∃ first rest taken, bytes = first :: rest ∧ scalarAt first rest = .ok (c, taken) ∧
      encode t = .ok (rest.drop taken) := by
  obtain ⟨head, tail, hhead, htail, rfl⟩ := encode_cons_iff.mp h
  obtain ⟨first, more, rfl⟩ := List.exists_cons_of_ne_nil (encodePoint_ne_nil hhead)
  have hscalar : encodeScalar c = first :: more := by
    unfold encodePoint at hhead
    have hescaped : isEscaped c = false := by
      simp only [CodePoint.isSurrogate, isEscaped, Bool.and_eq_false_iff,
        decide_eq_false_iff_not] at hc ⊢
      omega
    rw [hescaped, hc] at hhead
    exact Option.some.inj hhead
  refine ⟨first, more ++ tail, more.length, rfl, scalarAt_encodeScalar hc hscalar tail, ?_⟩
  rw [List.drop_left]
  exact htail

/-- A text without surrogates has an encoding. -/
theorem exists_encode {t : Text} (ht : t.IsPlain) : ∃ bytes, encode t = .ok bytes := by
  induction t with
  | nil => exact ⟨[], rfl⟩
  | cons c t ih =>
    obtain ⟨hc, hrest⟩ := List.forall_mem_cons.mp ht
    obtain ⟨tail, htail⟩ := ih hrest
    have hhead : ∃ head, encodePoint c = some head := by
      unfold encodePoint
      split
      · exact ⟨_, rfl⟩
      · rw [hc]
        exact ⟨_, rfl⟩
    obtain ⟨head, hhead⟩ := hhead
    exact ⟨head ++ tail, encode_cons_iff.mpr ⟨head, tail, hhead, htail, rfl⟩⟩

/-- Nothing of a text without surrogates is lost. -/
theorem decodeLossy_of_encode {t : Text} (ht : t.IsPlain) {bytes : Bytes}
    (h : encode t = .ok bytes) : decodeLossy bytes = t := by
  induction t generalizing bytes with
  | nil =>
    cases h
    rw [decodeLossy]
  | cons c t ih =>
    obtain ⟨hc, hrest⟩ := List.forall_mem_cons.mp ht
    obtain ⟨first, rest, taken, rfl, hscalar, htail⟩ := scalarAt_of_encode hc h
    rw [decodeLossy, hscalar]
    exact congrArg (c :: ·) (ih hrest htail)

/-! ## The byte order mark -/

/-- The code point that is encoded as the byte order mark. -/
def markPoint : CodePoint := CodePoint.ofNat 0xFEFF

/-- Behind a byte order mark the text begins. -/
theorem decodeMarked_mark_append (bytes : Bytes) : decodeMarked (mark ++ bytes) = decodeLossy bytes := by
  have hlength : ¬ (mark ++ bytes).length < mark.length := by simp
  unfold decodeMarked
  rw [decide_eq_false hlength]
  rfl

/-- A text without surrogates that does not start with the mark is read as it is. -/
theorem decodeMarked_of_encode {t : Text} (ht : t.IsPlain) (hmark : t.head? ≠ some markPoint)
    {bytes : Bytes} (h : encode t = .ok bytes) : decodeMarked bytes = t := by
  have hlossy := decodeLossy_of_encode ht h
  cases t with
  | nil =>
    cases h
    rfl
  | cons c t =>
    obtain ⟨first, rest, taken, rfl, hscalar, -⟩ :=
      scalarAt_of_encode (List.forall_mem_cons.mp ht).1 h
    have hbegun :
        ((first :: rest).length < mark.length && (first :: rest).isPrefixOf mark) = false := by
      rw [Bool.eq_false_iff]
      intro hbegun
      rw [Bool.and_eq_true, decide_eq_true_eq, List.isPrefixOf_iff_prefix] at hbegun
      obtain ⟨hlength, hprefix⟩ := hbegun
      obtain ⟨rfl, hsecond⟩ := List.cons_prefix_cons.mp hprefix
      -- no scalar value can be read from the beginning of a mark
      match rest with
      | [] => cases (show scalarAt 0xEF [] = .error (.ended, 1) from rfl).symm.trans hscalar
      | [second] =>
        obtain ⟨rfl, -⟩ := List.cons_prefix_cons.mp hsecond
        cases (show scalarAt 0xEF [0xBB] = .error (.ended, 2) from rfl).symm.trans hscalar
      | _ :: _ :: _ =>
        simp only [mark, List.length_cons, List.length_nil] at hlength
        omega
    have hwhole : mark.isPrefixOf (first :: rest) = false := by
      rw [Bool.eq_false_iff]
      intro hwhole
      rw [List.isPrefixOf_iff_prefix] at hwhole
      obtain ⟨more, heq⟩ := hwhole
      obtain ⟨rfl, rfl⟩ := List.cons.inj heq
      have hread : scalarAt 0xEF ([0xBB, 0xBF] ++ more) = .ok (markPoint, 2) :=
        scalarAt_encodeScalar (by decide) (by decide) more
      obtain ⟨rfl, -⟩ := Prod.mk.inj (Except.ok.inj (hscalar.symm.trans hread))
      exact hmark rfl
    unfold decodeMarked
    rw [hbegun, hwhole]
    exact hlossy

end Utf8

end BundleManifest
