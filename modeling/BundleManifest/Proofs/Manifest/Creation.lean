/-
# BundleManifest.Proofs.Manifest.Creation — which manifests can be written

A manifest can be written only where its temporary file can be made, and that file has a longer name, in the
absolute path of the directory. `written_iff` says exactly which manifests are written among those that
could be created under their own name: those for which one of the temporary names is free and taken by the
operating system. There is always a free one (`exists_lacks_temporary`), because the temporary names are
different and every name in use belongs to a node of its own.
-/
import BundleManifest.Proofs.FileSystem.Absolute
import BundleManifest.Proofs.FileSystem.WellFormed
import BundleManifest.Proofs.Manifest.Lines
import BundleManifest.Proofs.Manifest.Writing

namespace BundleManifest.Manifest

open FileSystem

/-! ## Temporary names as bytes -/

/-- The digits in the name of the `n`-th temporary file: eight of them, or as many as it takes. -/
def digits (n : Nat) : List Char :=
  List.replicate (8 - (Nat.toDigits 10 n).length) '0' ++ Nat.toDigits 10 n

/-- The name of the `n`-th temporary file as bytes. -/
def temporaryBytes (name : Bytes) (n : Nat) : Bytes :=
  [0x2E] ++ name ++ [0x2E] ++ (digits n).map (fun c => UInt8.ofNat c.toNat) ++ [0x2E, 0x74, 0x6D, 0x70]

/-- The path of the `n`-th temporary file for a manifest. -/
def temporaryPath (fs : FileSystem) (path : Path) (n : Nat) : Path :=
  (fs.absolute path.parent).child (temporaryName path.name n)

theorem isDigit_of_mem_digits {n : Nat} {c : Char} (h : c ∈ digits n) : c.isDigit = true := by
  rcases List.mem_append.mp h with h | h
  · rw [(List.mem_replicate.mp h).2]
    rfl
  · exact Nat.isDigit_of_mem_toDigits (by decide) (by decide) h

theorem length_digits (n : Nat) : (digits n).length = max 8 (Nat.toDigits 10 n).length := by
  unfold digits
  rw [List.length_append, List.length_replicate]
  omega

theorem digits_injective : Function.Injective digits := by
  intro m n h
  have hvalue (k : Nat) : Nat.ofDigitChars 10 (digits k) 0 = k := by
    unfold digits
    rw [Nat.ofDigitChars_append, Nat.ofDigitChars_replicate_zero, Nat.mul_zero,
      Nat.ofDigitChars_toDigits (by decide) (by decide)]
  rw [← hvalue m, h, hvalue]

theorem decode_digits (n : Nat) :
    Utf8.decode ((digits n).map fun c => UInt8.ofNat c.toNat) = (digits n).map CodePoint.ofChar := by
  have hascii (c : Char) (hc : c ∈ digits n) : c.toNat < 0x80 := by
    have hdigit := isDigit_of_mem_digits hc
    simp only [Char.isDigit, Bool.and_eq_true, decide_eq_true_eq, UInt32.le_iff_toNat_le] at hdigit
    exact Nat.lt_of_le_of_lt hdigit.2 (by decide)
  rw [Utf8.decode_of_ascii, List.map_map]
  · apply List.map_congr_left
    intro c hc
    have hbyte : (UInt8.ofNat c.toNat).toNat = c.toNat :=
      UInt8.toNat_ofNat_of_lt' (Nat.lt_trans (hascii c hc) (by decide))
    show CodePoint.ofNat (UInt8.ofNat c.toNat).toNat = CodePoint.ofChar c
    rw [hbyte]
    exact Fin.ext (CodePoint.val_ofNat (Nat.lt_trans (hascii c hc) (by decide)))
  · intro b hb
    obtain ⟨c, hc, rfl⟩ := List.mem_map.mp hb
    rw [UInt8.toNat_ofNat_of_lt' (Nat.lt_trans (hascii c hc) (by decide))]
    exact hascii c hc

theorem temporaryName_eq (name : Text) (n : Nat) :
    temporaryName name n = "." ++ name ++ "." ++ (digits n).map CodePoint.ofChar ++ ".tmp" := by
  unfold temporaryName digits Text.ofNat
  simp only [List.map_append, List.map_replicate, List.length_map, List.append_assoc]

theorem encode_temporaryName {name : Text} {bytes : Bytes} (h : Utf8.encode name = .ok bytes) (n : Nat) :
    Utf8.encode (temporaryName name n) = .ok (temporaryBytes bytes n) := by
  have hdot : Utf8.encode "." = .ok [0x2E] := rfl
  have htmp : Utf8.encode ".tmp" = .ok [0x2E, 0x74, 0x6D, 0x70] := rfl
  have hdigits := Utf8.encode_decode ((digits n).map fun c => UInt8.ofNat c.toNat)
  rw [decode_digits] at hdigits
  rw [temporaryName_eq]
  simp only [Utf8.encode_append_iff]
  exact ⟨_, _, ⟨_, _, ⟨_, _, ⟨_, _, hdot, h, rfl⟩, hdot, rfl⟩, hdigits, rfl⟩, htmp, rfl⟩

theorem length_temporaryBytes (name : Bytes) (n : Nat) :
    (temporaryBytes name n).length = name.length + 6 + max 8 (Nat.toDigits 10 n).length := by
  unfold temporaryBytes
  simp only [List.length_append, List.length_map, length_digits, List.length_cons, List.length_nil]
  omega

/-- A temporary name is longer than the name of the manifest by at least fourteen bytes. -/
theorem le_length_temporaryBytes (name : Bytes) (n : Nat) :
    name.length + 14 ≤ (temporaryBytes name n).length := by
  rw [length_temporaryBytes]
  omega

/-- It is longer by fourteen bytes as long as eight digits are enough. -/
theorem length_temporaryBytes_of_lt (name : Bytes) {n : Nat} (h : n < 10 ^ 8) :
    (temporaryBytes name n).length = name.length + 14 := by
  have hdigits : (Nat.toDigits 10 n).length ≤ 8 :=
    (Nat.length_toDigits_le_iff (by decide) (by decide)).mpr h
  rw [length_temporaryBytes]
  omega

/-- Later temporary names are not shorter. -/
theorem length_temporaryBytes_mono (name : Bytes) {m n : Nat} (h : m ≤ n) :
    (temporaryBytes name m).length ≤ (temporaryBytes name n).length := by
  have hdigits : (Nat.toDigits 10 m).length ≤ (Nat.toDigits 10 n).length := by
    have hpos : 0 < (Nat.toDigits 10 n).length := List.length_pos_iff.mpr Nat.toDigits_ne_nil
    rw [Nat.length_toDigits_le_iff (by decide) hpos]
    exact Nat.lt_of_le_of_lt h ((Nat.length_toDigits_le_iff (by decide) hpos).mp (Nat.le_refl _))
  rw [length_temporaryBytes, length_temporaryBytes]
  omega

theorem temporaryBytes_injective (name : Bytes) : Function.Injective (temporaryBytes name) := by
  intro m n h
  unfold temporaryBytes at h
  have hdigits := List.append_cancel_left (List.append_cancel_right h)
  apply digits_injective
  have hdecoded := congrArg Utf8.decode hdigits
  rw [decode_digits, decode_digits] at hdecoded
  exact (List.map_injective_iff.mpr fun c d hcd => Char.toNat_inj.mp (Fin.mk.inj hcd)) hdecoded

/-- A temporary name is a piece of a path, and none that leads anywhere by itself. -/
theorem isPiece_temporaryBytes {name : Bytes} (h : Route.IsPiece name) (n : Nat) :
    Route.IsPiece (temporaryBytes name n) := by
  have hencode := encode_temporaryName (Utf8.encode_decode name) n
  refine ⟨by simp [temporaryBytes], fun hmem => ?_, fun hmem => ?_⟩
  · have hname : CodePoint.ofChar '/' ∉ Utf8.decode name := fun hslash =>
      h.slash_not_mem ((Utf8.mem_decode_iff (by decide)).mp hslash)
    exact slash_not_mem_temporaryName hname n ((Utf8.mem_encode_iff hencode (by decide)).mp hmem)
  · have hzero := zero_mem_of_temporaryName ((Utf8.zero_mem_encode_iff hencode).mp hmem)
    exact h.zero_not_mem ((Utf8.mem_decode_iff (by decide)).mp hzero)

theorem temporaryBytes_ne_dots (name : Bytes) (n : Nat) :
    temporaryBytes name n ≠ Route.self ∧ temporaryBytes name n ≠ Route.up := by
  have hlength := le_length_temporaryBytes name n
  constructor
  · intro h
    rw [h, Route.self, List.length_singleton] at hlength
    omega
  · intro h
    rw [h, Route.up] at hlength
    simp only [List.length_cons, List.length_nil] at hlength
    omega

/-! ## A free name -/

section
variable {fs : FileSystem}

/-- Of the temporary names that are tried, a directory lacks one: the others belong to different nodes. -/
theorem exists_lacks_temporary (hwhole : fs.Whole) (e : Inode) (name : Bytes) :
    ∃ n ≤ fs.nodes.length, fs.Lacks e (temporaryBytes name n) := by
  by_contra hnone
  have hholds (n : Nat) (hn : n ∈ List.range (fs.nodes.length + 1)) :
      ∃ i, fs.Holds e (temporaryBytes name n) i := by
    by_contra hfree
    exact hnone ⟨n, Nat.le_of_lt_succ (List.mem_range.mp hn), lacks_of_not_holds (not_exists.mp hfree)⟩
  choose! node hnode using hholds
  have hnodup : ((List.range (fs.nodes.length + 1)).map node).Nodup := by
    refine List.Nodup.map_on (fun m hm n hn heq => ?_) List.nodup_range
    have hsame := hnode n hn
    rw [← heq] at hsame
    exact temporaryBytes_injective name (hwhole.listed_once (hnode m hm) hsame).2
  have hused : (List.range (fs.nodes.length + 1)).map node ⊆ fs.numbers := by
    intro i hi
    obtain ⟨n, hn, rfl⟩ := List.mem_map.mp hi
    by_contra hunused
    exact hwhole.entry (hnode n hn) (node?_eq_none_iff.mpr hunused)
  have hlength := (hnodup.subperm hused).length_le
  rw [List.length_map, List.length_range, numbers, List.length_map] at hlength
  omega

/-- If a directory lacks one of the temporary names, there is a first one that it lacks, and it is tried. -/
theorem exists_first_lacks (hwhole : fs.Whole) {e : Inode} {name : Bytes} {n : Nat}
    (h : fs.Lacks e (temporaryBytes name n)) :
    ∃ k ≤ n, k ≤ fs.nodes.length ∧ fs.Lacks e (temporaryBytes name k) ∧
      ∀ j < k, ∃ i, fs.Holds e (temporaryBytes name j) i := by
  classical
  have hfree : ∃ k, fs.Lacks e (temporaryBytes name k) := ⟨n, h⟩
  obtain ⟨k, hk, hlacks⟩ := exists_lacks_temporary hwhole e name
  refine ⟨Nat.find hfree, Nat.find_min' hfree h, (Nat.find_min' hfree hlacks).trans hk,
    Nat.find_spec hfree, fun j hj => ?_⟩
  by_contra hnone
  exact Nat.find_min hfree hj (lacks_of_not_holds (not_exists.mp hnone))

/-- The first name that is not taken is used. -/
theorem makeFirst_of_taken {directory : Path} {name : Text} {made : FileSystem} {n : Nat}
    {before : List Nat} (more : List Nat)
    (htaken : ∀ k ∈ before, fs.make (directory.child (temporaryName name k)).text
      (fun _ => .regular []) = .error (.fault .taken))
    (hmade : fs.make (directory.child (temporaryName name n)).text (fun _ => .regular []) = .ok made) :
    makeFirst fs directory name (before ++ n :: more)
      = .ok (made, (directory.child (temporaryName name n)).text) := by
  induction before with
  | nil => simp only [List.nil_append, makeFirst, hmade]
  | cons k before ih =>
    obtain ⟨hk, hbefore⟩ := List.forall_mem_cons.mp htaken
    simp only [List.cons_append, makeFirst, hk]
    exact ih hbefore

end

/-! ## The temporary file of a manifest -/

section
variable {fs : FileSystem} (hfs : fs.Sound) (hwhole : fs.Whole) (hplaced : fs.Placed) {path : Path}
  (hplain : path.Plain) {name : Bytes} (hname : Utf8.encode path.name = .ok name)
  (hpiece : Route.IsPiece name)
include hfs hwhole hplaced hplain hname hpiece

/-- Where a later temporary name can be looked up, an earlier one can be. -/
theorem endsAt_earlier {k n : Nat} (hle : k ≤ n) {e : Inode}
    (h : fs.EndsAt (temporaryPath fs path n).text e (temporaryBytes name n)) :
    fs.EndsAt (temporaryPath fs path k).text e (temporaryBytes name k) := by
  obtain ⟨route, -, hroute, -⟩ := h.route
  obtain ⟨bytes, hbytes, -, -, hlength, -⟩ := Route.ofText_eq_ok_iff.mp hroute
  have habove := plain_absolute hfs hplaced hplain.parent
  have hpart := habove.child (temporaryName_ne_nil path.name n)
    (slash_not_mem_temporaryName hplain.slash_not_mem_name n)
  have hfits : (temporaryPath fs path k).text.Fits :=
    Path.fits_child_of_le (encode_temporaryName hname n) (encode_temporaryName hname k)
      (length_temporaryBytes_mono name hle) ⟨bytes, hbytes, hlength⟩
  obtain ⟨hself, hup⟩ := temporaryBytes_ne_dots name k
  exact h.beside hwhole habove hpart (encode_temporaryName hname k) (isPiece_temporaryBytes hpiece k)
    hself hup hfits

/-- There is a temporary file as soon as one of its names can be made. -/
theorem exists_makeTemporary (haskable : path.parent.text.Askable) {n : Nat} {e : Inode}
    (hends : fs.EndsAt (temporaryPath fs path n).text e (temporaryBytes name n))
    (hlacks : fs.Lacks e (temporaryBytes name n))
    (hlength : (temporaryBytes name n).length ≤ Route.nameLimit) :
    ∃ made temporary, makeTemporary fs path = .ok (made, temporary) := by
  -- the first free name is used; it is not longer, and enough names are tried to find it
  obtain ⟨k, hle, hbound, hfree, htaken⟩ := exists_first_lacks hwhole hlacks
  have hrefused (j : Nat) (hj : j ∈ List.range k) :
      fs.make (temporaryPath fs path j).text (fun _ => .regular []) = .error (.fault .taken) := by
    have hlt := List.mem_range.mp hj
    obtain ⟨i, hholds⟩ := htaken j hlt
    obtain ⟨node, hnode⟩ := Option.ne_none_iff_exists'.mp (hwhole.entry hholds)
    have hearlier := endsAt_earlier hfs hwhole hplaced hplain hname hpiece (hlt.le.trans hle) hends
    exact make_eq_taken_iff.mpr ⟨i, hearlier.locate_of_holds hfs hholds hnode (Or.inl rfl)⟩
  have hmade : fs.make (temporaryPath fs path k).text (fun _ => .regular [])
      = .ok (fs.addEntry e (temporaryBytes name k) (.regular [])) := by
    have hearlier := endsAt_earlier hfs hwhole hplaced hplain hname hpiece hle hends
    have hshort := (length_temporaryBytes_mono name hle).trans hlength
    exact make_eq_ok_iff.mpr ⟨e, _, hearlier.locate_of_lacks hfree hshort false, rfl⟩
  obtain ⟨more, hrange⟩ : ∃ more, List.range (fs.nodes.length + 1) = List.range k ++ k :: more := by
    have hsplit : fs.nodes.length + 1 = k + (fs.nodes.length - k + 1) := by omega
    rw [hsplit, List.range_add, List.range_succ_eq_map, List.map_cons]
    exact ⟨_, rfl⟩
  have hfirst := makeFirst_of_taken more hrefused hmade
  rw [← hrange] at hfirst
  obtain ⟨bytes, hbytes, hzero⟩ := haskable
  unfold makeTemporary
  simp only [hbytes, List.contains_eq_mem, hzero, decide_false, Bool.false_eq_true, if_false]
  exact ⟨_, _, hfirst⟩

omit hwhole hplaced hpiece in
/-- The temporary file of a manifest that has been written had a free name that was not too long. -/
theorem temporary_of_write {files : List Text} {p : Path}
    (h : (write fs path files).result = .ok p) :
    ∃ n e, fs.EndsAt (temporaryPath fs path n).text e (temporaryBytes name n) ∧
      fs.Lacks e (temporaryBytes name n) ∧ (temporaryBytes name n).length ≤ Route.nameLimit := by
  obtain ⟨-, made, temporary, hmade, -⟩ := stages_of_write h
  obtain ⟨n, rfl, hmake⟩ := make_of_makeFirst (makeFirst_of_makeTemporary hmade)
  obtain ⟨e, old, hvacancy, -⟩ := make_eq_ok_iff.mp hmake
  obtain ⟨hends, hencode⟩ := endsAt_of_vacancy (temporaryName_ne_nil path.name n)
    (slash_not_mem_temporaryName hplain.slash_not_mem_name n) hvacancy
  obtain ⟨hlegal, hlacks, -⟩ := locate_vacancy hfs hvacancy
  obtain rfl : temporaryBytes name n = old :=
    Except.ok.inj ((encode_temporaryName hname n).symm.trans hencode)
  exact ⟨n, e, hends, hlacks, hlegal.length_le⟩

end

/-! ## Manifests that can be created -/

/-- A path at which a file can be created: it goes on behind a directory with a legal name, which does not
name a directory, and it is no longer than a path may be. -/
structure Creatable (fs : FileSystem) (path : Path) (d : Inode) (name : Bytes) : Prop where
  stat : fs.stat path.parent.text = .ok d
  kind : fs.kind? d = some .directory
  encode : Utf8.encode path.name = .ok name
  legal : LegalName name
  fits : path.text.Fits
  holds : ∀ i, fs.Holds d name i → fs.kind? i ≠ some .directory

theorem Creatable.endsAt {fs : FileSystem} (hwhole : fs.Whole) {path : Path} (hplain : path.Plain)
    {d : Inode} {name : Bytes} (h : Creatable fs path d name) : fs.EndsAt path.text d name := by
  have hparts : path.parts ≠ [] := by
    intro hnil
    have hname := h.encode
    rw [Path.name, hnil] at hname
    cases hname
    exact h.legal.ne_nil rfl
  have hchild := Path.parent_child_name hparts
  have hfits := h.fits
  rw [← hchild] at hfits ⊢
  exact endsAt_child hwhole hplain.parent h.stat h.kind h.encode (Route.isPiece_of_legalName h.legal)
    h.legal.ne_self h.legal.ne_up hfits

/-- A manifest whose place can be created is written exactly if one of its temporary names is free in the
directory that the absolute path leads to, and neither the name nor its path is too long. Where the
directory is given without `..`, that is so for every name of at most 241 bytes, whatever it stands for,
as long as eight digits are enough to find a free name and the absolute path is not too long. A longer
name is never written, although a file could be created under it. -/
theorem written_iff {fs : FileSystem} (hfs : fs.Sound) (hwhole : fs.Whole) (hplaced : fs.Placed)
    {target : Text} {d : Inode} {name : Bytes} (h : Creatable fs (Path.ofText target) d name)
    {files : List Text} (hfiles : ∀ x ∈ files, ∃ line, Utf8.encode x = .ok line) :
    let path := Path.ofText target
    ((write fs path files).result = .ok path ↔
      ∃ n e, fs.EndsAt (temporaryPath fs path n).text e (temporaryBytes name n) ∧
        fs.Lacks e (temporaryBytes name n) ∧ (temporaryBytes name n).length ≤ Route.nameLimit) ∧
    (Text.dotdot ∉ path.parent.parts → name.length + 14 ≤ Route.nameLimit →
      (∃ n < 10 ^ 8, fs.Lacks d (temporaryBytes name n) ∧ (temporaryPath fs path n).text.Fits) →
      (write fs path files).result = .ok path) ∧
    (Route.nameLimit < name.length + 14 → ∃ failure, (write fs path files).result = .error failure) := by
  intro path
  have hplain : path.Plain := Path.plain_ofText target
  have hpiece := Route.isPiece_of_legalName h.legal
  obtain ⟨bytes, hbytes⟩ := exists_encode_text_iff.mpr hfiles
  have hwritten {n : Nat} {e : Inode}
      (hends : fs.EndsAt (temporaryPath fs path n).text e (temporaryBytes name n))
      (hlacks : fs.Lacks e (temporaryBytes name n))
      (hlength : (temporaryBytes name n).length ≤ Route.nameLimit) :
      (write fs path files).result = .ok path := by
    obtain ⟨made, temporary, hmade⟩ := exists_makeTemporary hfs hwhole hplaced hplain h.encode hpiece
      (askable_of_stat h.stat) hends hlacks hlength
    exact write_of_endsAt hfs hwhole hplain hmade (h.endsAt hwhole hplain) h.legal.length_le h.holds hbytes
  refine ⟨⟨temporary_of_write hfs hplain h.encode, ?_⟩, ?_, ?_⟩
  · rintro ⟨n, e, hends, hlacks, hlength⟩
    exact hwritten hends hlacks hlength
  · rintro hup hshort ⟨n, hn, hlacks, hfits⟩
    have habove : fs.stat (fs.absolute path.parent).text = .ok d :=
      stat_absolute hfs hwhole hplaced hup hplain.parent h.stat (Path.fits_of_fits_child hfits)
    obtain ⟨hself, hdots⟩ := temporaryBytes_ne_dots name n
    have hends : fs.EndsAt (temporaryPath fs path n).text d (temporaryBytes name n) :=
      endsAt_child hwhole (plain_absolute hfs hplaced hplain.parent) habove h.kind
        (encode_temporaryName h.encode n) (isPiece_temporaryBytes hpiece n) hself hdots hfits
    refine hwritten hends hlacks ?_
    rwa [length_temporaryBytes_of_lt name hn]
  · intro hlong
    cases hresult : (write fs path files).result with
    | error failure => exact ⟨failure, rfl⟩
    | ok p =>
      obtain ⟨n, e, -, -, hlength⟩ := temporary_of_write hfs hplain h.encode hresult
      have hlonger := le_length_temporaryBytes name n
      omega

/-- A directory with a link that leads nowhere. -/
def quay : FileSystem :=
  FileSystem.empty.applyAll [.makeDirectory "d", .makeLink "d/m" [0x78]]

theorem whole_quay : quay.Whole := FileSystem.whole_made _

theorem placed_quay : quay.Placed := FileSystem.placed_made _

set_option maxRecDepth 10000 in
theorem creatable_quay : Creatable quay (Path.ofText "d/m") 1 [0x6D] where
  stat := by decide
  kind := by decide
  encode := by decide
  legal := by decide
  fits := ⟨[0x64, 0x2F, 0x6D], by decide, by decide⟩
  holds i h := by
    have hedges : ∀ a ∈ quay.edges, quay.kind? a.2.2 ≠ some .directory ∨ a.1 ≠ 1 := by decide
    exact (hedges _ h.mem_edges).resolve_right fun hne => hne rfl

set_option maxRecDepth 10000 in
/-- The manifest is written in place of the link. -/
theorem written_iff_quay :
    Creatable quay (Path.ofText "d/m") 1 [0x6D] ∧
    (write quay (Path.ofText "d/m") ["f"]).result = .ok (Path.ofText "d/m") := by
  have hfiles : ∀ x ∈ [("f" : Text)], ∃ line, Utf8.encode x = .ok line := by
    intro x hx
    rw [List.mem_singleton.mp hx]
    exact ⟨[0x66], rfl⟩
  obtain ⟨-, hwritten, -⟩ :=
    written_iff (by decide) whole_quay placed_quay creatable_quay hfiles
  refine ⟨creatable_quay, hwritten (by decide) (by decide) ⟨0, by decide, ?_, ?_⟩⟩
  · apply lacks_of_not_holds
    intro i h
    have hedges : ∀ a ∈ quay.edges, a.2.1 ≠ temporaryBytes [0x6D] 0 := by decide
    exact hedges _ h.mem_edges rfl
  · exact ⟨_, rfl, by decide⟩

/-- A name of 250 bytes. -/
def longName : Text := List.replicate 250 (CodePoint.ofChar 'a')

set_option maxRecDepth 10000 in
theorem creatable_longName :
    Creatable FileSystem.empty (Path.ofText longName) FileSystem.rootInode
      (List.replicate 250 0x61) where
  stat := by decide +kernel
  kind := by decide
  encode := by decide +kernel
  legal := by decide +kernel
  fits := ⟨List.replicate 250 0x61, by decide +kernel, by decide⟩
  holds i h := by
    have hedges := h.mem_edges
    cases hedges

/-- A file can be created under a name of 250 bytes, but no manifest is written there. -/
theorem not_every_manifest_is_written :
    ¬ ∀ (fs : FileSystem) (target : Text) (d : Inode) (name : Bytes) (files : List Text),
      fs.Sound → fs.Whole → fs.Placed → Creatable fs (Path.ofText target) d name →
      (∀ x ∈ files, ∃ line, Utf8.encode x = .ok line) →
      (write fs (Path.ofText target) files).result = .ok (Path.ofText target) := by
  intro h
  have hwhole : FileSystem.empty.Whole := FileSystem.whole_made []
  have hplaced : FileSystem.empty.Placed := FileSystem.placed_made []
  have hwritten := h FileSystem.empty longName _ _ [] sound_empty hwhole hplaced creatable_longName
    fun x hx => absurd hx List.not_mem_nil
  obtain ⟨n, e, -, -, hlength⟩ :=
    temporary_of_write sound_empty (Path.plain_ofText longName) creatable_longName.encode hwritten
  have hlonger := le_length_temporaryBytes (List.replicate 250 0x61) n
  rw [List.length_replicate] at hlonger
  exact absurd (hlonger.trans hlength) (by decide)

end BundleManifest.Manifest
