/-
# BundleManifest.Proofs.Pattern.Canonical — the canonical form of a rule line

The same rule can be written in many ways: with blanks around it, with separators of either style, and
with separators repeated. `Pattern.canonical` is the line that has none of this, and it denotes the rule
again (`parse?_canonical`). What a line denotes depends only on whether it begins and ends with a separator
and on what stands between its separators, and none of the ways in which a rule can be rewritten changes
that (`Restyle.readsLike`). Conversely every line can be rewritten as its canonical line
(`restyled_canonical`), so there are no other ways to write the same rule.
-/
import BundleManifest.Proofs.Pattern.Parsing
import BundleManifest.Proofs.Text.Pieces
import BundleManifest.Proofs.Text.Trim

namespace BundleManifest

/-! ## Reading a trimmed line -/

/-- A separator of either style. -/
def CodePoint.IsSeparator (c : CodePoint) : Prop :=
  c = CodePoint.ofChar '/' ∨ c = CodePoint.ofChar '\\'

instance (c : CodePoint) : Decidable c.IsSeparator := inferInstanceAs (Decidable (_ ∨ _))

theorem CodePoint.IsSeparator.isBlank {c : CodePoint} (h : c.IsSeparator) : c.isBlank = false := by
  rcases h with rfl | rfl <;> decide

theorem CodePoint.IsSeparator.ne_comment {c : CodePoint} (h : c.IsSeparator) :
    c ≠ CodePoint.ofChar '#' := by
  rcases h with rfl | rfl <;> decide

theorem CodePoint.IsSeparator.replaced {c : CodePoint} (h : c.IsSeparator) :
    (if c = CodePoint.ofChar '\\' then CodePoint.ofChar '/' else c) = CodePoint.ofChar '/' := by
  rcases h with rfl | rfl <;> decide

/-- Where another separator in the place of one makes no difference, all of them can be slashes. -/
theorem CodePoint.replace_of_style {R : Text → Text → Prop} (hR : Equivalence R)
    (hstyle : ∀ {c d : CodePoint}, c.IsSeparator → d.IsSeparator → ∀ a b, R (a ++ c :: b) (a ++ d :: b))
    (a t : Text) : R (a ++ t) (a ++ Text.replace '\\' '/' t) := by
  induction t generalizing a with
  | nil => exact hR.refl _
  | cons c t ih =>
    have hrest : R (a ++ [if c = CodePoint.ofChar '\\' then CodePoint.ofChar '/' else c] ++ t)
        (a ++ Text.replace '\\' '/' (c :: t)) := by
      simpa [Text.replace] using
        ih (a ++ [if c = CodePoint.ofChar '\\' then CodePoint.ofChar '/' else c])
    refine hR.trans ?_ hrest
    rw [List.append_assoc, List.singleton_append]
    by_cases hback : c = CodePoint.ofChar '\\'
    · rw [if_pos hback]
      exact hstyle (Or.inr hback) (Or.inl rfl) a t
    · rw [if_neg hback]
      exact hR.refl _

/-- There are wildcards in a text if there is a star or a question mark. -/
theorem Wildcard.exists_isWild_iff {t : Text} :
    (∃ c ∈ t, isWild c = true) ↔ CodePoint.ofChar '*' ∈ t ∨ CodePoint.ofChar '?' ∈ t := by
  simp only [isWild, Bool.or_eq_true, decide_eq_true_eq, and_or_left, exists_or, exists_eq_right]

@[simp] theorem PatternKind.isDirectory_ofFlags (isDirectory isWildcard : Bool) :
    (ofFlags isDirectory isWildcard).isDirectory = isDirectory := by
  cases isDirectory <;> cases isWildcard <;> rfl

@[simp] theorem PatternKind.isWildcard_ofFlags (isDirectory isWildcard : Bool) :
    (ofFlags isDirectory isWildcard).isWildcard = isWildcard := by
  cases isDirectory <;> cases isWildcard <;> rfl

namespace Pattern

/-- What stands between the separators of a line. -/
def parts (t : Text) : List Text :=
  (Text.split '/' (Text.replace '\\' '/' t)).filter (· != [])

/-- Whether a line begins with a separator. -/
def isOpened (t : Text) : Bool := (Text.replace '\\' '/' t).head? == some (CodePoint.ofChar '/')

/-- Whether a line ends with a separator. -/
def isClosed (t : Text) : Bool := (Text.replace '\\' '/' t).getLast? == some (CodePoint.ofChar '/')

/-- The rule that a trimmed line denotes, if it denotes one. -/
def ofTrimmed (t : Text) : Pattern where
  raw := t
  kind := .ofFlags (isClosed t) ((Text.join '/' (parts t)).any Wildcard.isWild)
  body := Text.join '/' (parts t)
  anchored := isOpened t

/-- Two lines, when they are trimmed, read alike. -/
structure ReadsLike (t u : Text) : Prop where
  nothing : (t = [] ∨ t.head? = some (CodePoint.ofChar '#')) ↔
    (u = [] ∨ u.head? = some (CodePoint.ofChar '#'))
  parts : parts t = parts u
  opened : isOpened t = isOpened u
  closed : isClosed t = isClosed u

theorem ReadsLike.refl (t : Text) : ReadsLike t t := ⟨Iff.rfl, rfl, rfl, rfl⟩

section
variable {t : Text}

theorem ne_nil_of_mem_parts {s : Text} (h : s ∈ parts t) : s ≠ [] :=
  bne_iff_ne.mp (List.mem_filter.mp h).2

/-- No separator stands between the separators. -/
theorem not_isSeparator_of_mem_parts {s : Text} (h : s ∈ parts t) {c : CodePoint} (hc : c ∈ s) :
    ¬ c.IsSeparator := by
  have hcut := (List.mem_filter.mp h).1
  rintro (rfl | rfl)
  · exact not_mem_of_mem_cut hcut hc
  · have hmem := mem_of_mem_cut hcut hc
    unfold Text.replace at hmem
    obtain ⟨d, -, hd⟩ := List.mem_map.mp hmem
    split at hd
    · exact absurd hd (by decide)
    · next hne => exact hne hd

theorem parse?_eq_some_iff {line : Text} {p : Pattern} :
    parse? line = some p ↔
      ¬ SaysNothing line ∧ parts (Text.trim line) ≠ [] ∧ ofTrimmed (Text.trim line) = p := by
  have hbody (t : Text) : Text.join '/' (parts t) = [] ↔ parts t = [] :=
    glue_eq_nil_iff fun s => ne_nil_of_mem_parts
  unfold parse?
  split
  · next hclean =>
    rw [cleanLine?_eq_none_iff] at hclean
    simp [hclean]
  · next raw hclean =>
    have hnothing : ¬ SaysNothing line := by
      rw [← cleanLine?_eq_none_iff, hclean]
      simp
    rw [← cleanLine?_eq_some hclean, ne_eq, ← hbody raw]
    show (if Text.join '/' (parts raw) = [] then none else some (ofTrimmed raw)) = some p ↔ _
    split
    · next hnil => simp [hnil]
    · next hnil => simp [hnothing, hnil]

end

/-! ## Separators in a line -/

section
variable {c : CodePoint} (hc : c.IsSeparator) (a b : Text)
include hc

theorem replace_append_cons :
    Text.replace '\\' '/' (a ++ c :: b)
      = Text.replace '\\' '/' a ++ CodePoint.ofChar '/' :: Text.replace '\\' '/' b := by
  unfold Text.replace
  rw [List.map_append, List.map_cons, hc.replaced]

theorem parts_append_cons : parts (a ++ c :: b) = parts a ++ parts b := by
  unfold parts
  rw [replace_append_cons hc, Text.split, cut_append, List.filter_append]

theorem isOpened_append_cons : isOpened (a ++ c :: b) = (a.isEmpty || isOpened a) := by
  unfold isOpened
  rw [replace_append_cons hc]
  cases a with
  | nil => rfl
  | cons d a => rfl

theorem isClosed_append_cons : isClosed (a ++ c :: b) = (b.isEmpty || isClosed b) := by
  unfold isClosed
  rw [replace_append_cons hc, List.getLast?_append]
  cases b with
  | nil => rfl
  | cons d b => rfl

theorem nothing_append_cons :
    (a ++ c :: b = [] ∨ (a ++ c :: b).head? = some (CodePoint.ofChar '#')) ↔
      a.head? = some (CodePoint.ofChar '#') := by
  cases a with
  | nil => simp [hc.ne_comment]
  | cons d a => simp

end

/-! A slash that may stand in front of a text or behind it adds no part. -/

section
variable (slash : Bool) {t : Text}

theorem parts_before (t : Text) :
    parts ((if slash then [CodePoint.ofChar '/'] else []) ++ t) = parts t := by
  cases slash with
  | true => exact parts_append_cons (Or.inl rfl) [] t
  | false => rfl

theorem isOpened_before (t : Text) :
    isOpened ((if slash then [CodePoint.ofChar '/'] else []) ++ t) = (slash || isOpened t) := by
  cases slash with
  | true => exact isOpened_append_cons (Or.inl rfl) [] t
  | false => rfl

theorem isClosed_before (h : t ≠ []) :
    isClosed ((if slash then [CodePoint.ofChar '/'] else []) ++ t) = isClosed t := by
  cases slash with
  | true =>
    have hclosed := isClosed_append_cons (c := CodePoint.ofChar '/') (Or.inl rfl) [] t
    rwa [List.isEmpty_eq_false_iff.mpr h] at hclosed
  | false => rfl

theorem parts_behind (t : Text) :
    parts (t ++ (if slash then [CodePoint.ofChar '/'] else [])) = parts t := by
  cases slash with
  | true =>
    have hparts := parts_append_cons (c := CodePoint.ofChar '/') (Or.inl rfl) t []
    rwa [show parts [] = [] from rfl, List.append_nil] at hparts
  | false => exact congrArg parts (List.append_nil t)

theorem isOpened_behind (h : t ≠ []) :
    isOpened (t ++ (if slash then [CodePoint.ofChar '/'] else [])) = isOpened t := by
  cases slash with
  | true =>
    have hopened := isOpened_append_cons (c := CodePoint.ofChar '/') (Or.inl rfl) t []
    rwa [List.isEmpty_eq_false_iff.mpr h] at hopened
  | false => exact congrArg isOpened (List.append_nil t)

theorem isClosed_behind (t : Text) :
    isClosed (t ++ (if slash then [CodePoint.ofChar '/'] else [])) = (slash || isClosed t) := by
  cases slash with
  | true => exact isClosed_append_cons (Or.inl rfl) t []
  | false => exact congrArg isClosed (List.append_nil t)

end

/-- Another separator in the place of one makes no difference. -/
theorem readsLike_style {c d : CodePoint} (hc : c.IsSeparator) (hd : d.IsSeparator) (a b : Text) :
    ReadsLike (a ++ c :: b) (a ++ d :: b) where
  nothing := by rw [nothing_append_cons hc, nothing_append_cons hd]
  parts := by rw [parts_append_cons hc, parts_append_cons hd]
  opened := by rw [isOpened_append_cons hc, isOpened_append_cons hd]
  closed := by rw [isClosed_append_cons hc, isClosed_append_cons hd]

/-- Nor does one more of them. -/
theorem readsLike_doubled {c d : CodePoint} (hc : c.IsSeparator) (hd : d.IsSeparator) (a b : Text) :
    ReadsLike (a ++ c :: b) (a ++ c :: d :: b) where
  nothing := by rw [nothing_append_cons hc, nothing_append_cons hc]
  parts := by
    have hlater : parts (d :: b) = parts b := parts_append_cons hd [] b
    rw [parts_append_cons hc, parts_append_cons hc, hlater]
  opened := by rw [isOpened_append_cons hc, isOpened_append_cons hc]
  closed := by
    have hlater : isClosed (d :: b) = (b.isEmpty || isClosed b) := isClosed_append_cons hd [] b
    rw [isClosed_append_cons hc, isClosed_append_cons hc, hlater]
    rfl

/-! ## Rewriting a line -/

/-- A line is written in another way. -/
inductive Restyle : Text → Text → Prop
  | blanks {before after : Text} (hbefore : ∀ c ∈ before, c.isBlank = true)
    (hafter : ∀ c ∈ after, c.isBlank = true) (t : Text) : Restyle t (before ++ t ++ after)
  | style {c d : CodePoint} (hc : c.IsSeparator) (hd : d.IsSeparator) (a b : Text) :
    Restyle (a ++ c :: b) (a ++ d :: b)
  | doubled {c d : CodePoint} (hc : c.IsSeparator) (hd : d.IsSeparator) (a b : Text) :
    Restyle (a ++ c :: b) (a ++ c :: d :: b)

/-- Lines that are the same up to blanks around them and to the style and number of their separators. -/
def Restyled : Text → Text → Prop := Relation.EqvGen Restyle

/-- What a rule says, however it is written. -/
def meaning (p : Pattern) : PatternKind × Text × Bool := (p.kind, p.body, p.anchored)

theorem Restyle.readsLike {line other : Text} (h : Restyle line other) :
    ReadsLike (Text.trim line) (Text.trim other) := by
  cases h with
  | blanks hbefore hafter t =>
    rw [Text.trim_blanks hbefore hafter]
    exact .refl _
  | style hc hd a b =>
    rw [Text.trim_append_cons hc.isBlank, Text.trim_append_cons hd.isBlank]
    exact readsLike_style hc hd _ _
  | @doubled c d hc hd a b =>
    -- both separators stay when the longer line is trimmed
    have hlater : Text.trimEnd CodePoint.isBlank (d :: b) = d :: Text.trimEnd CodePoint.isBlank b :=
      Text.trimEnd_append_cons hd.isBlank [] b
    rw [Text.trim_append_cons hc.isBlank, Text.trim_append_cons hc.isBlank, hlater]
    exact readsLike_doubled hc hd _ _

/-- Lines that read alike denote rules that differ only in how they are written. -/
theorem ofTrimmed_of_readsLike {t u : Text} (h : ReadsLike t u) :
    ofTrimmed u = { ofTrimmed t with raw := u } := by
  unfold ofTrimmed
  rw [h.parts, h.opened, h.closed]

/-- Lines that read alike mean the same, or are both no rules. -/
theorem meaning_parse? {line other : Text}
    (h : ReadsLike (Text.trim line) (Text.trim other)) :
    (parse? other).map meaning = (parse? line).map meaning := by
  have hnothing : SaysNothing line ↔ SaysNothing other := h.nothing
  apply Option.ext
  intro m
  simp only [Option.map_eq_some_iff, parse?_eq_some_iff, hnothing, h.parts]
  -- what is written differs, and nothing else does
  constructor
  · rintro ⟨_, ⟨hmeans, hparts, rfl⟩, rfl⟩
    rw [ofTrimmed_of_readsLike h]
    exact ⟨_, ⟨hmeans, hparts, rfl⟩, rfl⟩
  · rintro ⟨_, ⟨hmeans, hparts, rfl⟩, rfl⟩
    refine ⟨_, ⟨hmeans, hparts, rfl⟩, ?_⟩
    rw [ofTrimmed_of_readsLike h]
    rfl

theorem Restyled.meaning_eq {line other : Text} (h : Restyled line other) :
    (parse? other).map meaning = (parse? line).map meaning := by
  induction h with
  | rel line other hstep => exact meaning_parse? hstep.readsLike
  | refl line => rfl
  | symm line other _ ih => exact ih.symm
  | trans line middle other _ _ ih ih' => exact ih'.trans ih

/-! ## The canonical line -/

/-- The canonical line of a rule: its body, with a slash in front if it is tied to the root, and a slash
behind if it is about directories. -/
def canonical (p : Pattern) : Text :=
  (if p.anchored then [CodePoint.ofChar '/'] else []) ++ p.body
    ++ (if p.kind.isDirectory then [CodePoint.ofChar '/'] else [])

theorem ne_nil_of_parts {t : Text} (hparts : parts t ≠ []) : t ≠ [] := by
  rintro rfl
  exact hparts rfl

section
variable {t : Text} (hparts : parts t ≠ [])
include hparts

theorem body_ne_nil : Text.join '/' (parts t) ≠ [] := by
  intro hnil
  exact hparts ((glue_eq_nil_iff fun s => ne_nil_of_mem_parts).mp hnil)

/-- What a line without a separator in front begins with is what its body begins with. -/
theorem head?_body (hopened : isOpened t = false) :
    (Text.join '/' (parts t)).head? = t.head? := by
  obtain ⟨c, rest, rfl⟩ := List.exists_cons_of_ne_nil (ne_nil_of_parts hparts)
  have hhead : (Text.replace '\\' '/' (c :: rest)).head? ≠ some (CodePoint.ofChar '/') := by
    simpa [isOpened] using hopened
  have hkept : (Text.replace '\\' '/' (c :: rest)).head? = some c := by
    unfold Text.replace at hhead ⊢
    rw [List.map_cons, List.head?_cons] at hhead ⊢
    rw [if_neg]
    intro hc
    rw [if_pos hc] at hhead
    exact hhead rfl
  generalize hline : Text.replace '\\' '/' (c :: rest) = line at hhead hkept
  obtain ⟨first, pieces, hcut⟩ := List.exists_cons_of_ne_nil (cut_ne_nil (CodePoint.ofChar '/') line)
  have hfirst : first ≠ [] := by
    rintro rfl
    rcases head?_cut_eq_some_nil_iff.mp (congrArg List.head? hcut) with hnil | hslash
    · rw [hnil] at hkept
      cases hkept
    · exact hhead hslash
  have hbody : parts (c :: rest) = first :: pieces.filter (· != []) := by
    unfold parts
    rw [hline, Text.split, hcut, List.filter_cons_of_pos (by simpa using hfirst)]
  rw [hbody, Text.join, head?_glue_cons hfirst, ← head?_glue_cons hfirst pieces, ← hcut, glue_cut,
    hkept]
  rfl

/-- What a line without a separator behind ends with is what its body ends with. -/
theorem getLast?_body (hclosed : isClosed t = false) :
    (Text.join '/' (parts t)).getLast? = t.getLast? := by
  obtain ⟨front, c, rfl⟩ : ∃ front c, t = front ++ [c] :=
    (List.eq_nil_or_concat' t).resolve_left (ne_nil_of_parts hparts)
  have hlast : (Text.replace '\\' '/' (front ++ [c])).getLast? ≠ some (CodePoint.ofChar '/') := by
    simpa [isClosed] using hclosed
  have hkept : (Text.replace '\\' '/' (front ++ [c])).getLast? = some c := by
    unfold Text.replace at hlast ⊢
    rw [List.map_append, List.map_singleton, List.getLast?_concat] at hlast ⊢
    rw [if_neg]
    intro hc
    rw [if_pos hc] at hlast
    exact hlast rfl
  generalize hline : Text.replace '\\' '/' (front ++ [c]) = line at hlast hkept
  obtain ⟨pieces, last, hcut⟩ : ∃ pieces last, cut (CodePoint.ofChar '/') line = pieces ++ [last] :=
    (List.eq_nil_or_concat' _).resolve_left (cut_ne_nil (CodePoint.ofChar '/') line)
  have hne : last ≠ [] := by
    rintro rfl
    have hempty : (cut (CodePoint.ofChar '/') line).getLast? = some [] := by
      rw [hcut, List.getLast?_concat]
    rcases getLast?_cut_eq_some_nil_iff.mp hempty with hnil | hslash
    · rw [hnil] at hkept
      cases hkept
    · exact hlast hslash
  have hbody : parts (front ++ [c]) = pieces.filter (· != []) ++ [last] := by
    unfold parts
    rw [hline, Text.split, hcut, List.filter_append,
      List.filter_cons_of_pos (by simpa using hne), List.filter_nil]
  rw [hbody, Text.join, getLast?_glue_append_singleton hne,
    ← getLast?_glue_append_singleton hne pieces, ← hcut, glue_cut, hkept, List.getLast?_concat]

/-- The body is cut into the same parts again, and no separator stands at its ends. -/
theorem parts_body :
    parts (Text.join '/' (parts t)) = parts t ∧ isOpened (Text.join '/' (parts t)) = false ∧
      isClosed (Text.join '/' (parts t)) = false := by
  have hplain : Text.replace '\\' '/' (Text.join '/' (parts t)) = Text.join '/' (parts t) := by
    apply Text.replace_of_not_mem
    rw [Text.join, mem_glue_iff (by decide)]
    rintro ⟨s, hs, hmem⟩
    exact not_isSeparator_of_mem_parts hs hmem (Or.inr rfl)
  have hcut : cut (CodePoint.ofChar '/') (Text.join '/' (parts t)) = parts t := by
    apply cut_glue hparts
    intro s hs hmem
    exact not_isSeparator_of_mem_parts hs hmem (Or.inl rfl)
  have hne := body_ne_nil hparts
  refine ⟨?_, ?_, ?_⟩
  · unfold parts at hplain hcut ⊢
    rw [hplain, Text.split, hcut, List.filter_filter]
    simp
  · unfold isOpened
    rw [hplain, beq_eq_false_iff_ne]
    intro hslash
    have hempty := head?_cut_eq_some_nil_iff.mpr (Or.inr hslash)
    rw [hcut] at hempty
    exact ne_nil_of_mem_parts (List.mem_of_mem_head? hempty) rfl
  · unfold isClosed
    rw [hplain, beq_eq_false_iff_ne]
    intro hslash
    have hempty := getLast?_cut_eq_some_nil_iff.mpr (Or.inr hslash)
    rw [hcut] at hempty
    exact ne_nil_of_mem_parts (List.mem_of_getLast? hempty) rfl

end

theorem canonical_ofTrimmed (t : Text) :
    (ofTrimmed t).canonical = (if isOpened t then [CodePoint.ofChar '/'] else [])
      ++ Text.join '/' (parts t) ++ (if isClosed t then [CodePoint.ofChar '/'] else []) := by
  unfold canonical ofTrimmed
  rw [PatternKind.isDirectory_ofFlags]

section
variable {t : Text} (hparts : parts t ≠ [])
include hparts

/-- The canonical line begins as the line does, up to the style of a separator. -/
theorem head?_canonical :
    (ofTrimmed t).canonical.head? = if isOpened t then some (CodePoint.ofChar '/') else t.head? := by
  rw [canonical_ofTrimmed, List.append_assoc]
  cases hopened : isOpened t with
  | true => rfl
  | false =>
    obtain ⟨c, rest, hbody⟩ := List.exists_cons_of_ne_nil (body_ne_nil hparts)
    have hhead := head?_body hparts hopened
    rw [hbody] at hhead ⊢
    exact hhead

/-- It ends as the line does. -/
theorem getLast?_canonical :
    (ofTrimmed t).canonical.getLast?
      = if isClosed t then some (CodePoint.ofChar '/') else t.getLast? := by
  rw [canonical_ofTrimmed]
  cases hclosed : isClosed t with
  | true => exact List.getLast?_concat
  | false =>
    have hlast := getLast?_body hparts hclosed
    have hne := body_ne_nil hparts
    simp only [Bool.false_eq_true, if_false, List.append_nil]
    rw [List.getLast?_append, hlast, List.getLast?_eq_some_getLast (ne_nil_of_parts hparts)]
    rfl

/-- The canonical line of a trimmed line is trimmed. -/
theorem trim_canonical (htrim : Text.trim t = t) :
    Text.trim (ofTrimmed t).canonical = (ofTrimmed t).canonical := by
  have hslash : (CodePoint.ofChar '/').isBlank = false := by decide
  apply Text.trim_eq_self
  · intro c hc
    rw [head?_canonical hparts] at hc
    split at hc
    · rw [← Option.some.inj hc]
      exact hslash
    · rw [← htrim] at hc
      exact Text.isBlank_of_head?_trim hc
  · intro c hc
    rw [getLast?_canonical hparts] at hc
    split at hc
    · rw [← Option.some.inj hc]
      exact hslash
    · rw [← htrim] at hc
      exact Text.isBlank_of_getLast?_trim hc

/-- The canonical line reads as the line that it stands for. -/
theorem readsLike_canonical (hcomment : t.head? ≠ some (CodePoint.ofChar '#')) :
    ReadsLike t (ofTrimmed t).canonical := by
  obtain ⟨hbody, hopenedBody, hclosedBody⟩ := parts_body hparts
  have hne : Text.join '/' (parts t) ≠ [] := body_ne_nil hparts
  have hbehind : Text.join '/' (parts t)
      ++ (if isClosed t then [CodePoint.ofChar '/'] else []) ≠ [] := List.append_ne_nil_of_left_ne_nil hne _
  constructor
  · rw [head?_canonical hparts]
    have hleft : t ≠ [] := ne_nil_of_parts hparts
    have hright : (ofTrimmed t).canonical ≠ [] := by
      intro hnil
      have hhead := head?_canonical hparts
      rw [hnil] at hhead
      split at hhead
      · cases hhead
      · exact hleft (List.head?_eq_none_iff.mp hhead.symm)
    simp only [hleft, hcomment, hright, false_or]
    split
    · decide
    · simpa using hcomment
  -- a separator in front or behind adds no part
  · rw [canonical_ofTrimmed, List.append_assoc, parts_before, parts_behind, hbody]
  · rw [canonical_ofTrimmed, List.append_assoc, isOpened_before, isOpened_behind _ hne,
      hopenedBody, Bool.or_false]
  · rw [canonical_ofTrimmed, List.append_assoc, isClosed_before _ hbehind, isClosed_behind,
      hclosedBody, Bool.or_false]

end

/-! ## Every rule can be rewritten as its canonical line -/

theorem restyled_trim (line : Text) : Restyled line (Text.trim line) := by
  obtain ⟨before, after, hbefore, hafter, hline⟩ := Text.exists_blanks line
  have hstep : Restyle (Text.trim line) (before ++ Text.trim line ++ after) :=
    .blanks hbefore hafter (Text.trim line)
  rw [← hline] at hstep
  exact .symm _ _ (.rel _ _ hstep)

theorem restyled_replace (a t : Text) : Restyled (a ++ t) (a ++ Text.replace '\\' '/' t) :=
  CodePoint.replace_of_style (Relation.EqvGen.is_equivalence Restyle)
    (fun hc hd a b => .rel _ _ (.style hc hd a b)) a t

/-- What is left of pieces behind a slash when slashes are no longer repeated: the pieces that are not
empty, and a slash behind them if the last piece is. -/
def tidied (pieces : List Text) : Text :=
  glue (CodePoint.ofChar '/') (pieces.filter (· != []))
    ++ (if pieces.getLast? = some [] ∧ pieces.filter (· != []) ≠ [] then [CodePoint.ofChar '/'] else [])

theorem tidied_nil_cons (pieces : List Text) (h : pieces ≠ []) :
    tidied ([] :: pieces) = tidied pieces := by
  unfold tidied
  rw [List.getLast?_cons_of_ne_nil h]
  rfl

/-- Behind a piece that is not empty comes a slash, unless it is the last piece. -/
theorem tidied_cons {piece : Text} (hpiece : piece ≠ []) (pieces : List Text) (h : pieces ≠ []) :
    tidied (piece :: pieces) = piece ++ CodePoint.ofChar '/' :: tidied pieces := by
  have hkept : (piece :: pieces).filter (· != []) = piece :: pieces.filter (· != []) :=
    List.filter_cons_of_pos (by simpa using hpiece)
  unfold tidied
  rw [hkept, List.getLast?_cons_of_ne_nil h]
  by_cases hfilter : pieces.filter (· != []) = []
  · -- all pieces are empty, the last one too
    have hlast : pieces.getLast? = some [] := by
      rw [List.getLast?_eq_some_getLast h]
      have hempty := List.filter_eq_nil_iff.mp hfilter _ (List.getLast_mem h)
      simpa using hempty
    simp [hfilter, hlast, glue]
  · obtain ⟨next, others, hnext⟩ := List.exists_cons_of_ne_nil hfilter
    rw [hnext, glue]
    simp

theorem restyled_tidied (a : Text) {pieces : List Text} (h : pieces ≠ []) :
    Restyled (a ++ CodePoint.ofChar '/' :: glue (CodePoint.ofChar '/') pieces)
      (a ++ CodePoint.ofChar '/' :: tidied pieces) := by
  induction pieces generalizing a with
  | nil => exact absurd rfl h
  | cons piece pieces ih =>
    cases pieces with
    | nil =>
      have hsingle : tidied [piece] = piece := by
        unfold tidied
        by_cases hpiece : piece = [] <;> simp [hpiece, glue]
      rw [hsingle]
      exact .refl _
    | cons next pieces =>
      have hne : next :: pieces ≠ [] := List.cons_ne_nil next pieces
      rw [glue]
      by_cases hpiece : piece = []
      · rw [hpiece, tidied_nil_cons _ hne]
        refine .trans _ _ _ (.symm _ _ (.rel _ _ ?_)) (ih a hne)
        exact .doubled (Or.inl rfl) (Or.inl rfl) a _
      · rw [tidied_cons hpiece _ hne]
        have hrest := ih (a ++ CodePoint.ofChar '/' :: piece) hne
        simpa using hrest

/-- The canonical line, piece by piece. -/
theorem canonical_eq_tidied {t first : Text} {pieces : List Text} (hparts : parts t ≠ [])
    (hcut : cut (CodePoint.ofChar '/') (Text.replace '\\' '/' t) = first :: pieces) :
    (ofTrimmed t).canonical
      = (if first = [] then [CodePoint.ofChar '/'] else []) ++ tidied (first :: pieces) := by
  have hne : Text.replace '\\' '/' t ≠ [] := by
    unfold Text.replace
    rw [ne_eq, List.map_eq_nil_iff]
    exact ne_nil_of_parts hparts
  have hopened : isOpened t = true ↔ first = [] := by
    have hfirst : (cut (CodePoint.ofChar '/') (Text.replace '\\' '/' t)).head? = some []
        ↔ (Text.replace '\\' '/' t).head? = some (CodePoint.ofChar '/') :=
      head?_cut_eq_some_nil_iff.trans (or_iff_right hne)
    rw [hcut, List.head?_cons, Option.some.injEq] at hfirst
    rw [isOpened, beq_iff_eq, hfirst]
  have hclosed : isClosed t = true ↔ (first :: pieces).getLast? = some [] := by
    have hlast : (cut (CodePoint.ofChar '/') (Text.replace '\\' '/' t)).getLast? = some []
        ↔ (Text.replace '\\' '/' t).getLast? = some (CodePoint.ofChar '/') :=
      getLast?_cut_eq_some_nil_iff.trans (or_iff_right hne)
    rw [hcut] at hlast
    rw [isClosed, beq_iff_eq, hlast]
  have hkept : parts t = (first :: pieces).filter (· != []) := by rw [parts, Text.split, hcut]
  rw [hkept] at hparts
  rw [canonical_ofTrimmed, tidied, hkept]
  simp only [hopened, hclosed, hparts, ne_eq, not_false_eq_true, and_true, List.append_assoc]

/-- A trimmed line that is a rule can be rewritten as its canonical line. -/
theorem restyled_canonical {t : Text} (hparts : parts t ≠ []) :
    Restyled t (ofTrimmed t).canonical := by
  refine .trans _ _ _ (restyled_replace [] t) ?_
  obtain ⟨first, pieces, hcut⟩ := List.exists_cons_of_ne_nil
    (cut_ne_nil (CodePoint.ofChar '/') (Text.replace '\\' '/' t))
  rw [List.nil_append, canonical_eq_tidied hparts hcut, ← glue_cut (CodePoint.ofChar '/')
    (Text.replace '\\' '/' t), hcut]
  by_cases hpieces : pieces = []
  · -- then there is one piece, which is not empty
    have hfirst : first ≠ [] := by
      rintro rfl
      apply hparts
      rw [parts, Text.split, hcut, hpieces]
      rfl
    have hsingle : tidied [first] = first := by
      unfold tidied
      simp [hfirst, glue]
    rw [hpieces, hsingle, if_neg hfirst]
    exact .refl _
  · obtain ⟨next, others, rfl⟩ := List.exists_cons_of_ne_nil hpieces
    rw [glue]
    by_cases hfirst : first = []
    · rw [if_pos hfirst, hfirst, tidied_nil_cons _ hpieces]
      exact restyled_tidied [] hpieces
    · rw [if_neg hfirst, tidied_cons hfirst _ hpieces]
      exact restyled_tidied first hpieces

/-- Lines of rules that mean the same can be rewritten as each other. -/
theorem restyled_of_meaning_eq {line other : Text} {p q : Pattern} (hp : parse? line = some p)
    (hq : parse? other = some q) (h : p.meaning = q.meaning) : Restyled line other := by
  obtain ⟨-, hparts, rfl⟩ := parse?_eq_some_iff.mp hp
  obtain ⟨-, hparts', rfl⟩ := parse?_eq_some_iff.mp hq
  have hcanonical : (ofTrimmed (Text.trim line)).canonical
      = (ofTrimmed (Text.trim other)).canonical := by
    obtain ⟨hkind, hbody, hanchored⟩ : _ ∧ _ ∧ _ := by simpa [meaning] using h
    unfold canonical
    rw [hkind, hbody, hanchored]
  have hline := (restyled_trim line).trans _ _ _ (restyled_canonical hparts)
  have hother := (restyled_trim other).trans _ _ _ (restyled_canonical hparts')
  rw [hcanonical] at hline
  exact hline.trans _ _ _ (hother.symm _ _)

/-- The kind of a rule says whether there are wildcards in its body. -/
theorem isWildcard_ofTrimmed_iff (t : Text) :
    (ofTrimmed t).kind.isWildcard = true ↔
      CodePoint.ofChar '*' ∈ (ofTrimmed t).body ∨ CodePoint.ofChar '?' ∈ (ofTrimmed t).body := by
  have hkind : (ofTrimmed t).kind.isWildcard = (ofTrimmed t).body.any Wildcard.isWild :=
    PatternKind.isWildcard_ofFlags _ _
  rw [hkind, List.any_eq_true, Wildcard.exists_isWild_iff]

/-- A line is no rule exactly if it is blank, a comment, or nothing but separators. Every rule has segments
that are neither empty nor cut by a separator, says by its kind whether there are wildcards in its body, and
has a canonical line, which denotes the rule again and is its own canonical line. Blanks around a line, the
style of its separators and how often they are repeated change neither the kind nor the body of the rule, nor
whether it is tied to the root; and rules that have all of this in common differ in nothing else. -/
theorem parse?_canonical (line : Text) :
    (parse? line = none ↔
      Text.trim line = [] ∨ (Text.trim line).head? = some (CodePoint.ofChar '#') ∨
        ∀ c ∈ Text.trim line, c = CodePoint.ofChar '/' ∨ c = CodePoint.ofChar '\\') ∧
    (∀ p, parse? line = some p →
      (∀ s ∈ p.segments, s ≠ [] ∧ CodePoint.ofChar '/' ∉ s ∧ CodePoint.ofChar '\\' ∉ s) ∧
      (p.kind.isWildcard = true ↔
        CodePoint.ofChar '*' ∈ p.body ∨ CodePoint.ofChar '?' ∈ p.body) ∧
      parse? p.canonical = some { p with raw := p.canonical } ∧
      (parse? p.canonical).map canonical = some p.canonical ∧ Restyled line p.canonical) ∧
    (∀ other, Restyled line other → (parse? other).map meaning = (parse? line).map meaning) ∧
    ∀ other p q, parse? line = some p → parse? other = some q → p.meaning = q.meaning →
      Restyled line other := by
  refine ⟨?_, ?_, fun other h => h.meaning_eq, fun other p q => restyled_of_meaning_eq⟩
  · rw [parse?_eq_none_iff, SaysNothing, or_assoc]
  intro p hp
  obtain ⟨hmeans, hparts, rfl⟩ := parse?_eq_some_iff.mp hp
  have hreads : ReadsLike (Text.trim line) (ofTrimmed (Text.trim line)).canonical :=
    readsLike_canonical hparts fun hcomment => hmeans (Or.inr hcomment)
  have htrim : Text.trim (ofTrimmed (Text.trim line)).canonical
      = (ofTrimmed (Text.trim line)).canonical :=
    trim_canonical hparts (Text.trim_trim line)
  have hagain : parse? (ofTrimmed (Text.trim line)).canonical
      = some { ofTrimmed (Text.trim line) with raw := (ofTrimmed (Text.trim line)).canonical } := by
    rw [parse?_eq_some_iff, htrim, ← hreads.parts]
    refine ⟨?_, hparts, ofTrimmed_of_readsLike hreads⟩
    unfold SaysNothing
    rwa [htrim, ← hreads.nothing]
  refine ⟨?_, isWildcard_ofTrimmed_iff _, hagain, ?_, ?_⟩
  · have hsegments : (ofTrimmed (Text.trim line)).segments = parts (Text.trim line) := by
      apply cut_glue hparts
      intro s hs hmem
      exact not_isSeparator_of_mem_parts hs hmem (Or.inl rfl)
    rw [hsegments]
    intro s hs
    exact ⟨ne_nil_of_mem_parts hs, fun hmem => not_isSeparator_of_mem_parts hs hmem (Or.inl rfl),
      fun hmem => not_isSeparator_of_mem_parts hs hmem (Or.inr rfl)⟩
  · rw [hagain]
    rfl
  · exact (restyled_trim line).trans _ _ _ (restyled_canonical hparts)

/-- A rule that is written with everything that does not matter. -/
theorem parse?_canonical_untidy :
    let untidy : Text := " \\\\src//#a b*\\/ "
    parse? untidy = some ⟨"\\\\src//#a b*\\/", .wildcardDirectory, "src/#a b*", true⟩ ∧
    canonical ⟨"\\\\src//#a b*\\/", .wildcardDirectory, "src/#a b*", true⟩ = "/src/#a b*/" ∧
    parse? "/src/#a b*/" = some ⟨"/src/#a b*/", .wildcardDirectory, "src/#a b*", true⟩ := by
  have hparse : parse? " \\\\src//#a b*\\/ "
      = some ⟨"\\\\src//#a b*\\/", .wildcardDirectory, "src/#a b*", true⟩ := by decide
  obtain ⟨-, hrule, -⟩ := parse?_canonical " \\\\src//#a b*\\/ "
  obtain ⟨-, -, hagain, -⟩ := hrule _ hparse
  exact ⟨hparse, by decide, hagain⟩

end Pattern

end BundleManifest
