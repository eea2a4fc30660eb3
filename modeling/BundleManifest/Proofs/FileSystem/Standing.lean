/-
# BundleManifest.Proofs.FileSystem.Standing — routes without links

A route `Stands` at a node when it leads there and no link is met on the way. It is written as a path with
a part for every segment (`Route.ofText_path`), and the path of an entry and the path above stand where
they should (`Stands.endsAt`, `Stands.above`). The `width` of a route bounds how long its path is.
-/
import BundleManifest.Proofs.FileSystem.Descent
import BundleManifest.Proofs.Text.Pieces

namespace BundleManifest

theorem length_glue {α : Type} [DecidableEq α] (sep : α) {pieces : List (List α)}
    (h : pieces ≠ []) :
    (glue sep pieces).length + 1 = (pieces.map fun piece => piece.length + 1).sum := by
  induction pieces with
  | nil => exact absurd rfl h
  | cons piece pieces ih =>
    cases pieces with
    | nil => simp [glue]
    | cons next pieces =>
      have hrest := ih (List.cons_ne_nil next pieces)
      rw [List.map_cons, List.sum_cons, ← hrest, glue, List.length_append, List.length_cons]
      omega

theorem Path.text_of_ne_nil (anchor : Anchor) {parts : List Text} (h : parts ≠ []) :
    Path.text ⟨anchor, parts⟩ = anchor.text ++ Text.join '/' parts := by
  cases parts with
  | nil => exact absurd rfl h
  | cons first others => cases anchor <;> rfl

/-! ## Routes as paths -/

namespace Route

/-- The bytes that a route is written with. -/
def bytes (route : Route) : Bytes :=
  (if route.absolute then [slash] else []) ++ glue slash route.segments

/-- The bytes of segments, with a slash for each; those that are a point do not count. -/
def weight (segments : List Bytes) : Nat :=
  ((segments.filter (· != self)).map fun segment => segment.length + 1).sum

/-- What a route weighs with the slash at its start. -/
def width (route : Route) : Nat := weight route.segments + if route.absolute then 1 else 0

/-- A route with one more segment. -/
def child (route : Route) (name : Bytes) : Route :=
  { route with segments := route.segments ++ [name] }

theorem weight_cons {segment : Bytes} (h : segment ≠ self) (segments : List Bytes) :
    weight (segment :: segments) = segment.length + 1 + weight segments := by
  unfold weight
  rw [List.filter_cons_of_pos (by simpa using h), List.map_cons, List.sum_cons]

theorem weight_append (xs ys : List Bytes) : weight (xs ++ ys) = weight xs + weight ys := by
  simp [weight]

theorem width_child (route : Route) {name : Bytes} (h : name ≠ self) :
    (route.child name).width = route.width + name.length + 1 := by
  have hname := weight_cons h []
  unfold width child
  rw [weight_append, hname]
  simp only [weight, List.filter_nil, List.map_nil, List.sum_nil]
  omega

theorem path_child (route : Route) (name : Bytes) :
    (route.child name).path = route.path.child (Utf8.decode name) := by
  unfold child path Path.child
  rw [List.map_append]
  rfl

theorem text_path {route : Route} (h : route.segments ≠ []) :
    route.path.text = Utf8.decode route.bytes := by
  have hglue := Utf8.decode_glue (by decide : slash.toNat < 0x80) route.segments
  unfold path bytes
  rw [Path.text_of_ne_nil _ (by simpa using h)]
  cases route.absolute with
  | true =>
    have hslash : Utf8.decode (slash :: glue slash route.segments)
        = Utf8.decode [] ++ CodePoint.ofNat slash.toNat :: Utf8.decode (glue slash route.segments) :=
      Utf8.decode_append [] (glue slash route.segments) (by decide)
    show _ = Utf8.decode (slash :: glue slash route.segments)
    rw [hslash, hglue, Utf8.decode_eq_nil_iff.mpr rfl]
    rfl
  | false =>
    simp only [Bool.false_eq_true, if_false, List.nil_append]
    rw [hglue]
    rfl

/-- Pieces that are no points are written with as many bytes as they weigh. -/
theorem length_bytes {route : Route} (h : route.segments ≠ []) (hself : self ∉ route.segments) :
    route.bytes.length + 1 = route.width := by
  have hfilter : route.segments.filter (· != self) = route.segments := by
    rw [List.filter_eq_self]
    intro segment hsegment
    rw [bne_iff_ne]
    rintro rfl
    exact hself hsegment
  have hglue := length_glue slash h
  unfold bytes width weight
  rw [hfilter, ← hglue, List.length_append]
  split
  · simp
    omega
  · simp

/-- Pieces are cut out as they were. -/
theorem cut_bytes {route : Route} (h : route.segments ≠ [])
    (hpieces : ∀ segment ∈ route.segments, IsPiece segment) :
    cut slash route.bytes = (if route.absolute then [[]] else []) ++ route.segments := by
  have hcut : cut slash (glue slash route.segments) = route.segments :=
    cut_glue h fun segment hsegment => (hpieces segment hsegment).slash_not_mem
  unfold bytes
  split
  · show cut slash ([] ++ slash :: glue slash route.segments) = _
    rw [cut_append, hcut]
    rfl
  · exact hcut

/-- The bytes of a route are read as the route. -/
theorem ofBytes_bytes {route : Route} (h : route.segments ≠ [])
    (hpieces : ∀ segment ∈ route.segments, IsPiece segment) :
    ofBytes route.bytes = { route with slashed := false } := by
  have hcut := cut_bytes h hpieces
  have hnil : [] ∉ route.segments := fun hmem => (hpieces [] hmem).ne_nil rfl
  have habsolute : (route.bytes.head? == some slash) = route.absolute := by
    rw [Bool.eq_iff_iff, beq_iff_eq]
    constructor
    · intro hhead
      by_contra hrelative
      have hfirst := head?_cut_eq_some_nil_iff.mpr (Or.inr hhead)
      rw [hcut, if_neg hrelative, List.nil_append] at hfirst
      exact hnil (List.mem_of_head? hfirst)
    · intro habsolute
      unfold bytes
      rw [if_pos habsolute]
      rfl
  have hslashed : (route.bytes.getLast? == some slash) = false := by
    rw [beq_eq_false_iff_ne]
    intro hslash
    have hlast := getLast?_cut_eq_some_nil_iff.mpr (Or.inr hslash)
    rw [hcut, List.getLast?_append_of_ne_nil _ h] at hlast
    exact hnil (List.mem_of_getLast? hlast)
  have hsegments : (cut slash route.bytes).filter (· != []) = route.segments := by
    have hkept : route.segments.filter (· != []) = route.segments := by
      rw [List.filter_eq_self]
      exact fun segment hsegment => bne_iff_ne.mpr (hpieces segment hsegment).ne_nil
    rw [hcut, List.filter_append, hkept]
    split <;> rfl
  unfold ofBytes
  rw [habsolute, hslashed, hsegments]

/-- No byte of a route is zero. -/
theorem zero_not_mem_bytes {route : Route} (h : route.segments ≠ [])
    (hpieces : ∀ segment ∈ route.segments, IsPiece segment) : (0 : UInt8) ∉ route.bytes := by
  intro hzero
  obtain ⟨piece, hpiece, hmem⟩ := exists_mem_cut hzero (by decide : (0 : UInt8) ≠ slash)
  rw [cut_bytes h hpieces, List.mem_append] at hpiece
  rcases hpiece with hpiece | hpiece
  · split at hpiece
    · rw [List.mem_singleton.mp hpiece] at hmem
      cases hmem
    · cases hpiece
  · exact (hpieces piece hpiece).zero_not_mem hmem

/-- The path of a route is taken as the route, if it is not too long. -/
theorem ofText_path {route : Route} (h : route.segments ≠ [])
    (hpieces : ∀ segment ∈ route.segments, IsPiece segment)
    (hself : self ∉ route.segments) (hwidth : route.width ≤ lengthLimit + 1) :
    ofText route.path.text = .ok { route with slashed := false } := by
  have hlength := length_bytes h hself
  have hpositive : route.bytes ≠ [] := by
    intro hnil
    have hsegments := congrArg Route.segments (ofBytes_bytes h hpieces)
    rw [hnil] at hsegments
    exact h hsegments.symm
  refine ofText_eq_ok_iff.mpr
    ⟨route.bytes, ?_, zero_not_mem_bytes h hpieces, hpositive, by omega,
      (ofBytes_bytes h hpieces).symm⟩
  rw [text_path h]
  exact Utf8.encode_decode _

/-- The steps of a path, points left out, are its pieces. -/
theorem filter_steps (bytes : Bytes) :
    (ofBytes bytes).steps.filter (· != self)
      = ((cut slash bytes).filter (· != [])).filter (· != self) := by
  unfold steps
  rw [List.filter_append]
  split
  · simp [ofBytes]
  · simp [ofBytes]

/-- Reading a path never adds to what it weighs. -/
theorem width_ofBytes_le (bytes : Bytes) :
    weight (ofBytes bytes).steps + (if (ofBytes bytes).absolute then 1 else 0)
      ≤ bytes.length + 1 := by
  have hlength : bytes.length + 1 = ((cut slash bytes).map fun piece => piece.length + 1).sum := by
    rw [← length_glue slash (cut_ne_nil slash bytes), glue_cut]
  have hkept (pieces : List (List UInt8)) :
      (((pieces.filter (· != [])).filter (· != self)).map fun piece => piece.length + 1).sum
        ≤ (pieces.map fun piece => piece.length + 1).sum :=
    ((List.filter_sublist.trans List.filter_sublist).map _).sum_le_sum fun _ _ => Nat.zero_le _
  unfold weight
  rw [filter_steps, hlength]
  split
  · next habsolute =>
    -- the empty piece before the first slash is left out
    obtain ⟨rest, rfl⟩ : ∃ rest, bytes = slash :: rest :=
      List.head?_eq_some_iff.mp (beq_iff_eq.mp habsolute)
    have hcut : cut slash (slash :: rest) = [] :: cut slash rest := if_pos rfl
    have hle := hkept (cut slash rest)
    rw [hcut, List.filter_cons_of_neg (by decide), List.map_cons, List.sum_cons]
    simp only [List.length_nil]
    omega
  · exact hkept (cut slash bytes)

/-- Where the target of a link is followed that has been met on a route. -/
def towards (route : Route) (target : Bytes) : Route :=
  if (ofBytes target).absolute then ⟨true, [], false⟩ else route

theorem path_towards (route : Route) (target : Bytes) :
    (route.towards target).path = if (ofBytes target).absolute then ⟨.root, []⟩ else route.path := by
  unfold towards
  split <;> rfl

theorem width_towards_le (route : Route) (target : Bytes) :
    (route.towards target).width + weight (ofBytes target).steps
      ≤ route.width + target.length + 1 := by
  have hle := width_ofBytes_le target
  unfold towards
  split
  · next habsolute =>
    rw [if_pos habsolute] at hle
    show 1 + weight (ofBytes target).steps ≤ _
    omega
  · omega

end Route

namespace FileSystem

/-! ## Where routes stand -/

/-- A route leads to a node, without points and without a link on the way. -/
structure Stands (fs : FileSystem) (route : Route) (d : Inode) : Prop where
  pieces : ∀ segment ∈ route.segments, Route.IsPiece segment
  self_not_mem : Route.self ∉ route.segments
  arrives : fs.advance true (fs.start route) route.segments = .ok (.node d)

namespace Stands

variable {fs : FileSystem} {route : Route} {d : Inode}

/-- Every route stands where it starts. -/
theorem start (fs : FileSystem) (absolute : Bool) :
    fs.Stands ⟨absolute, [], false⟩ (fs.start ⟨absolute, [], false⟩) where
  pieces _ h := absurd h List.not_mem_nil
  self_not_mem := List.not_mem_nil
  arrives := rfl

theorem towards (h : fs.Stands route d) (target : Bytes) :
    fs.Stands (route.towards target) (targetStart d target) := by
  unfold Route.towards targetStart
  split
  · exact start fs true
  · exact h

theorem pieces_child {name : Bytes} (h : fs.Stands route d) (hpiece : Route.IsPiece name) :
    ∀ segment ∈ (route.child name).segments, Route.IsPiece segment := by
  intro segment hsegment
  rcases List.mem_append.mp hsegment with hsegment | hsegment
  · exact h.pieces segment hsegment
  · exact List.mem_singleton.mp hsegment ▸ hpiece

theorem self_not_mem_child {name : Bytes} (h : fs.Stands route d) (hself : name ≠ Route.self) :
    Route.self ∉ (route.child name).segments := by
  intro hmem
  rcases List.mem_append.mp hmem with hmem | hmem
  · exact h.self_not_mem hmem
  · exact hself (List.mem_singleton.mp hmem).symm

theorem append {name : Bytes} {i : Inode} (h : fs.Stands route d) (hpiece : Route.IsPiece name)
    (hself : name ≠ Route.self) (hname : fs.advance true d [name] = .ok (.node i)) :
    fs.Stands (route.child name) i where
  pieces := h.pieces_child hpiece
  self_not_mem := h.self_not_mem_child hself
  arrives := by
    show fs.advance true (fs.start route) (route.segments ++ [name]) = _
    rw [advance_append_of_node h.arrives, hname]

/-- The path of an entry that is no link stands at the entry. -/
theorem child (hfs : fs.Sound) {name : Bytes} {i : Inode} (h : fs.Stands route d)
    (hholds : fs.Holds d name i) (hkind : fs.kind? i ≠ some .link) :
    fs.Stands (route.child name) i := by
  have hname := hholds.legal hfs
  refine h.append (Route.isPiece_of_legalName hname) hname.ne_self ?_
  rw [hholds.advance hfs hkind]
  rfl

/-- The path of a name ends there, in the directory where the route stands. -/
theorem endsAt {name : Bytes} (h : fs.Stands route d) (hd : fs.kind? d = some .directory)
    (hpiece : Route.IsPiece name) (hself : name ≠ Route.self) (hup : name ≠ Route.up)
    (hwidth : (route.child name).width ≤ Route.lengthLimit + 1) :
    fs.EndsAt (route.path.child (Utf8.decode name)).text d name := by
  have hsegments : (route.child name).segments = route.segments ++ [name] := rfl
  rw [← Route.path_child]
  have hroute := Route.ofText_path (by simp [hsegments]) (h.pieces_child hpiece)
    (h.self_not_mem_child hself) hwidth
  exact ⟨⟨_, route.segments, hroute, rfl, rfl, locateFrom_of_node h.arrives _⟩, hd, hself, hup⟩

/-- The path above stands at the directory above. -/
theorem above (hfs : fs.Sound) (hplaced : fs.Placed) {up : Inode}
    {entries : List (Bytes × Inode)} (h : fs.Stands route d)
    (hd : fs.node? d = some (.directory up entries)) :
    ∃ higher : Route, FileSystem.above route.path = higher.path ∧ fs.Stands higher up ∧
      higher.width ≤ route.width + 3 := by
  have hstep : fs.advance true d [Route.up] = .ok (.node up) := by
    simp [FileSystem.advance, hd, Route.up, Route.self]
  have hmore : route.path.child Text.dotdot = (route.child Route.up).path ∧
      fs.Stands (route.child Route.up) up ∧ (route.child Route.up).width ≤ route.width + 3 :=
    ⟨by rw [Route.path_child, Utf8.decode_up],
      h.append ⟨by decide, by decide, by decide⟩ (by decide) hstep,
      Nat.le_of_eq (Route.width_child route (by decide))⟩
  obtain ⟨absolute, segments, slashed⟩ := route
  rcases List.eq_nil_or_concat' segments with rfl | ⟨front, last, rfl⟩
  · cases absolute with
    | true =>
      -- above the root there is the root
      cases h.arrives
      obtain rfl := hplaced.top hd
      exact ⟨_, rfl, h, Nat.le_add_right _ 3⟩
    | false => exact ⟨_, hmore.1, hmore.2⟩
  · by_cases hlast : last = Route.up
    · subst hlast
      refine ⟨_, ?_, hmore.2⟩
      rw [← hmore.1]
      unfold FileSystem.above
      simp [Route.path, Utf8.decode_up]
    · have hself : last ≠ Route.self := by
        rintro rfl
        exact h.self_not_mem (by simp)
      obtain ⟨e, hfront, hholds, -⟩ := exists_holds_of_advance hfs hself hlast h.arrives
      obtain rfl := hplaced.above hholds hd
      refine ⟨⟨absolute, front, slashed⟩, ?_, ⟨?_, ?_, hfront⟩, ?_⟩
      · have hpart : Utf8.decode last ≠ Text.dotdot :=
          fun heq => hlast (Utf8.decode_eq_dotdot_iff.mp heq)
        unfold FileSystem.above
        simp [Route.path, Path.parent, hpart]
      · exact fun segment hsegment => h.pieces segment (List.mem_append_left _ hsegment)
      · exact fun hmem => h.self_not_mem (List.mem_append_left _ hmem)
      · have hwidth : Route.width ⟨absolute, front ++ [last], slashed⟩ = _ :=
          Route.width_child ⟨absolute, front, slashed⟩ hself
        omega

end Stands

end FileSystem

end BundleManifest
