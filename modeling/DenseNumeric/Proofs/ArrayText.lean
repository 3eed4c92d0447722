import DenseNumeric.Proofs.ComplexLiterals

/-!
# What the text of an array tells

The text of an array is put together without a mark for the ends of its parts,
but each of them can be found again. The element type stands after the one
equals sign, the rows are lines, and no element contains a comma. A matrix is
told from a vector by its second bracket. So valid arrays with one text are one
array.
-/

namespace DenseNumeric

open Binary

/-! ## Separated texts -/

/-- A text is cut in one way at the first place of a character. -/
theorem cut_inj {c : Char} {x y r r' : List Char} (hx : c ∉ x) (hy : c ∉ y)
    (h : x ++ c :: r = y ++ c :: r') : x = y ∧ r = r' := by
  induction x generalizing y with
  | nil =>
      cases y with
      | nil => exact ⟨rfl, (List.cons.inj h).2⟩
      | cons d y => exact absurd ((List.cons.inj h).1 ▸ List.mem_cons_self) hy
  | cons d x ih =>
      cases y with
      | nil => exact absurd ((List.cons.inj h).1 ▸ List.mem_cons_self) hx
      | cons d' y =>
          obtain ⟨rfl, hrest⟩ := List.cons.inj h
          obtain ⟨rfl, rfl⟩ := ih (List.not_mem_of_not_mem_cons hx)
            (List.not_mem_of_not_mem_cons hy) hrest
          exact ⟨rfl, rfl⟩

/-- Texts are known from what they are joined to, if the separator has a
character that none of them has. -/
theorem intercalate_inj {c : Char} (before : List Char) {after : List Char}
    {xs ys : List (List Char)} (hbefore : c ∉ before) (hxs : ∀ x ∈ xs, c ∉ x)
    (hys : ∀ y ∈ ys, c ∉ y) (hx : xs ≠ []) (hy : ys ≠ [])
    (h : List.intercalate (before ++ c :: after) xs
      = List.intercalate (before ++ c :: after) ys) : xs = ys := by
  have hcut (x x' : List Char) (rest : List (List Char)) :
      List.intercalate (before ++ c :: after) (x :: x' :: rest) = (x ++ before) ++ c ::
        (after ++ List.intercalate (before ++ c :: after) (x' :: rest)) := by
    rw [List.intercalate_cons_cons]
    simp only [List.append_assoc, List.cons_append]
  induction xs generalizing ys with
  | nil => exact absurd rfl hx
  | cons x xs ih =>
      obtain ⟨y, ys, rfl⟩ := List.exists_cons_of_ne_nil hy
      obtain ⟨hcx, hxs⟩ := List.forall_mem_cons.1 hxs
      obtain ⟨hcy, hys⟩ := List.forall_mem_cons.1 hys
      cases xs with
      | nil =>
          cases ys with
          | nil =>
              rw [List.intercalate_singleton, List.intercalate_singleton] at h
              rw [h]
          | cons y' ys =>
              rw [List.intercalate_singleton, hcut] at h
              exact absurd (h ▸ List.mem_append_right _ List.mem_cons_self) hcx
      | cons x' xs =>
          cases ys with
          | nil =>
              rw [List.intercalate_singleton, hcut] at h
              exact absurd (h ▸ List.mem_append_right _ List.mem_cons_self) hcy
          | cons y' ys =>
              rw [hcut, hcut] at h
              obtain ⟨hx, hrest⟩ := cut_inj (List.not_mem_append hcx hbefore)
                (List.not_mem_append hcy hbefore) h
              rw [List.append_cancel_right hx,
                ih hxs hys nofun nofun (List.append_cancel_left hrest)]

theorem mem_intercalate_cons {c : Char} {separator x : List Char} {xs : List (List Char)}
    (h : c ∈ x) : c ∈ List.intercalate separator (x :: xs) := by
  cases xs with
  | nil => rwa [List.intercalate_singleton]
  | cons x' xs =>
      rw [List.intercalate_cons_cons, List.append_assoc]
      exact List.mem_append_left _ h

theorem mem_intercalate {c : Char} {separator : List Char} {xs : List (List Char)}
    (h : c ∈ List.intercalate separator xs) : c ∈ separator ∨ ∃ x ∈ xs, c ∈ x := by
  induction xs with
  | nil => cases h
  | cons x xs ih =>
      cases xs with
      | nil =>
          rw [List.intercalate_singleton] at h
          exact .inr ⟨x, List.mem_cons_self, h⟩
      | cons x' xs =>
          rw [List.intercalate_cons_cons, List.mem_append, List.mem_append] at h
          rcases h with (h | h) | h
          · exact .inr ⟨x, List.mem_cons_self, h⟩
          · exact .inl h
          · exact (ih h).imp_right fun ⟨y, hy, hc⟩ => ⟨y, List.mem_cons_of_mem _ hy, hc⟩

section

variable {c : Char} {f g : Nat → List Char} {m n : Nat}

/-- Texts that are numbered. -/
theorem intercalate_range_inj (before : List Char) {after : List Char} (hbefore : c ∉ before)
    (hf : ∀ k, c ∉ f k) (hg : ∀ k, c ∉ g k) (hm : 0 < m) (hn : 0 < n)
    (h : List.intercalate (before ++ c :: after) ((List.range m).map f)
      = List.intercalate (before ++ c :: after) ((List.range n).map g)) :
    m = n ∧ ∀ k < m, f k = g k := by
  have hne {f : Nat → List Char} {m : Nat} (hm : 0 < m) : (List.range m).map f ≠ [] := by
    rw [Ne, List.map_eq_nil_iff, List.range_eq_nil]
    exact hm.ne'
  have hmap := intercalate_inj before hbefore (List.forall_mem_map.2 fun k _ => hf k)
    (List.forall_mem_map.2 fun k _ => hg k) (hne hm) (hne hn) h
  obtain rfl : m = n := by simpa using congrArg List.length hmap
  exact ⟨rfl, fun k hk => List.map_inj_left.1 hmap k (List.mem_range.2 hk)⟩

theorem mem_intercalate_range {separator : List Char}
    (h : c ∈ List.intercalate separator ((List.range m).map f)) :
    c ∈ separator ∨ ∃ k, c ∈ f k :=
  (mem_intercalate h).imp_right fun ⟨_, hx, hc⟩ =>
    let ⟨k, _, hk⟩ := List.mem_map.1 hx
    ⟨k, hk ▸ hc⟩

end

theorem DType.shortName_injective {d d' : DType} (h : d.shortName = d'.shortName) : d = d' := by
  cases d <;> cases d' <;> first | rfl | exact absurd h (by decide)

namespace Binary

variable {x y : Float}

/-! ## Equal numbers -/

/-- Two numbers that are equal and have the same sign, or none that is a number. -/
def IsSame (x y : Float) : Prop :=
  (x == y) = true ∧ signOf x.toModel.unpack = signOf y.toModel.unpack ∨
    x.isNaN = true ∧ y.isNaN = true

theorem isSame_iff : IsSame x y ↔ x = y := by
  constructor
  · rintro (⟨hbeq, hsign⟩ | ⟨hx, hy⟩)
    · exact float_ext (eq_of_signOf_abs hsign (matches_iff.1 (.inl hbeq)).abs_eq)
    · exact float_ext ((isNaN_iff.1 hx).trans (isNaN_iff.1 hy).symm)
  · rintro rfl
    exact (Matches.refl x).imp_left fun hbeq => ⟨hbeq, rfl⟩

end Binary

namespace NumArray

variable {a b : NumArray} {i j : Nat} {c : Char}

/-! ## Rows -/

/-- The characters of elements besides digits. -/
def letters : List Char := ['+', '-', '.', 'N', 'a', 'i', 'n', 'f']

theorem mem_elementText (h : c ∈ a.elementText i j) : c.isDigit = true ∨ c ∈ letters := by
  have hliteral {x : Float} (h : c ∈ literal x) : c.isDigit = true ∨ c ∈ letters := by
    rcases eq_minus_or_mem_of_mem_literal h with rfl | h
    · exact .inr (by decide)
    · exact (mem_literal_abs h).imp_right fun h => List.mem_of_mem_drop (i := 2) h
  have himaginary {x : Float} (h : c ∈ imaginary x) : c.isDigit = true ∨ c ∈ letters := by
    have hunit (h : c ∈ literal x ++ ['i']) : c.isDigit = true ∨ c ∈ letters :=
      (List.mem_append.1 h).elim hliteral fun h => .inr (List.mem_singleton.1 h ▸ by decide)
    unfold imaginary at h
    split at h
    · exact (List.mem_cons.1 h).elim (fun h => .inr (h ▸ by decide)) hunit
    · exact hunit h
  unfold elementText at h
  cases hx : a.storage.load (a.shape.offset i j) with
  | real x =>
      rw [hx] at h
      exact hliteral h
  | complex z =>
      rw [hx, text_complex] at h
      exact (List.mem_append.1 h).elim hliteral himaginary

/-- The characters that stand between and around elements. -/
def marks : List Char := ['[', ']', ',', ' ', '\n', '=']

theorem mark_notMem_elementText (hc : c ∈ marks) : c ∉ a.elementText i j := fun h => by
  have hmarks : ∀ c ∈ marks, ¬(c.isDigit = true ∨ c ∈ letters) := by
    simp [marks, letters]
  exact hmarks c hc (mem_elementText h)

theorem rowText_eq (a : NumArray) (i : Nat) : a.rowText i
    = '[' :: List.intercalate [',', ' '] ((List.range a.ncols).map (a.elementText i)) ++ [']'] :=
  rfl

theorem rowText_inj (ha : 0 < a.ncols) (hb : 0 < b.ncols) (h : a.rowText i = b.rowText j) :
    a.ncols = b.ncols ∧ ∀ k < a.ncols, a.elementText i k = b.elementText j k := by
  rw [rowText_eq, rowText_eq] at h
  exact intercalate_range_inj [] List.not_mem_nil
    (fun _ => mark_notMem_elementText (by decide)) (fun _ => mark_notMem_elementText (by decide))
    ha hb (List.append_cancel_right (List.cons.inj h).2)

/-- The marks after the first bracket. -/
theorem mem_tail_rowText (h : c ∈ (a.rowText i).tail) (hc : c ∈ marks) : c ∈ [',', ' ', ']'] := by
  rw [rowText_eq, List.cons_append, List.tail_cons, List.mem_append] at h
  rcases h with h | h
  · rcases mem_intercalate_range h with h | ⟨k, h⟩
    · exact List.mem_append_left [']'] h
    · exact absurd h (mark_notMem_elementText hc)
  · exact List.mem_append_right [',', ' '] h

theorem notMem_rowText (hc : c ∈ ['\n', '=']) : c ∉ a.rowText i := fun h => by
  have hmarks : ∀ c ∈ ['\n', '='], c ≠ '[' ∧ c ∈ marks ∧ c ∉ [',', ' ', ']'] := by
    simp [marks]
  obtain ⟨hopen, hmark, hother⟩ := hmarks c hc
  exact hother (mem_tail_rowText ((List.mem_cons.1 h).resolve_left hopen) hmark)

/-! ## Arrays -/

/-- The text of the elements, without the element type. -/
def bodyText (a : NumArray) : List Char :=
  match a.shape with
  | .vector _ => a.rowText 0
  | .matrix m _ =>
    '[' :: List.intercalate [',', '\n', ' '] ((List.range m).map a.rowText) ++ [']']

theorem text_eq_bodyText_append (a : NumArray) :
    a.text = (a.bodyText ++ " dtype".toList) ++ '=' :: a.dtype.shortName.toList := by
  have hsuffix : (" dtype=" ++ a.dtype.shortName).toList
      = " dtype".toList ++ '=' :: a.dtype.shortName.toList := by
    rw [String.toList_append]
    rfl
  rw [List.append_assoc, ← hsuffix]
  rfl

theorem bodyText_vector {n : Nat} (h : a.shape = .vector n) : a.bodyText = a.rowText 0 := by
  rw [bodyText, h]

theorem bodyText_matrix {m n : Nat} (h : a.shape = .matrix m n) : a.bodyText
    = '[' :: List.intercalate [',', '\n', ' '] ((List.range m).map a.rowText) ++ [']'] := by
  rw [bodyText, h]

theorem equals_notMem_bodyText (a : NumArray) : '=' ∉ a.bodyText := fun h => by
  cases hs : a.shape with
  | vector n =>
      rw [bodyText_vector hs] at h
      exact notMem_rowText (by decide) h
  | matrix m n =>
      rw [bodyText_matrix hs, List.cons_append] at h
      rcases List.mem_append.1 ((List.mem_cons.1 h).resolve_left (by decide)) with h | h
      · rcases mem_intercalate_range h with h | ⟨k, h⟩
        · exact absurd h (by decide)
        · exact notMem_rowText (by decide) h
      · exact absurd h (by decide)

/-- A matrix opens a second bracket at once. -/
theorem bodyText_ne {m n k : Nat} (ha : a.shape = .vector k) (hb : b.shape = .matrix m n)
    (hm : 0 < m) : a.bodyText ≠ b.bodyText := fun h => by
  rw [bodyText_vector ha, bodyText_matrix hb] at h
  have hmem : '[' ∈ List.intercalate [',', '\n', ' '] ((List.range m).map b.rowText) := by
    obtain ⟨m, rfl⟩ := Nat.exists_eq_succ_of_ne_zero hm.ne'
    rw [List.range_succ_eq_map, List.map_cons]
    exact mem_intercalate_cons List.mem_cons_self
  have htail : '[' ∈ (a.rowText 0).tail := by
    rw [h]
    exact List.mem_append_left _ hmem
  exact absurd (mem_tail_rowText htail (by decide)) (by decide)

theorem bodyText_inj (ha : a.IsValid) (hb : b.IsValid) (h : a.bodyText = b.bodyText) :
    a.shape = b.shape ∧ ∀ i < a.nrows, ∀ j < a.ncols, a.elementText i j = b.elementText i j := by
  cases hsa : a.shape with
  | vector n =>
      cases hsb : b.shape with
      | vector n' =>
          rw [bodyText_vector hsa, bodyText_vector hsb] at h
          obtain ⟨hcols, hrow⟩ := rowText_inj ha.shape.2 hb.shape.2 h
          rw [ncols, ncols, hsa, hsb] at hcols
          refine ⟨congrArg Shape.vector hcols, fun i hi j hj => ?_⟩
          rw [nrows, hsa] at hi
          obtain rfl : i = 0 := Nat.lt_one_iff.1 hi
          exact hrow j hj
      | matrix m' n' =>
          have hrows := hb.shape.1
          rw [hsb] at hrows
          exact absurd h (bodyText_ne hsa hsb hrows)
  | matrix m n =>
      have hm := ha.shape.1
      rw [hsa] at hm
      cases hsb : b.shape with
      | vector n' => exact absurd h.symm (bodyText_ne hsb hsa hm)
      | matrix m' n' =>
          have hm' := hb.shape.1
          rw [hsb] at hm'
          rw [bodyText_matrix hsa, bodyText_matrix hsb] at h
          obtain ⟨rfl, hlines⟩ := intercalate_range_inj [','] (by decide)
            (fun _ => notMem_rowText (by decide)) (fun _ => notMem_rowText (by decide)) hm hm'
            (List.append_cancel_right (List.cons.inj h).2)
          have hrow (k : Nat) (hk : k < m) := rowText_inj ha.shape.2 hb.shape.2 (hlines k hk)
          have hcols := (hrow 0 hm).1
          rw [ncols, ncols, hsa, hsb] at hcols
          refine ⟨congrArg (Shape.matrix m) hcols, fun i hi => ?_⟩
          rw [nrows, hsa] at hi
          exact (hrow i hi).2

/-! ## Elements -/

theorem entry_eq_of_elementText_eq (ha : a.IsValid) (hb : b.IsValid) (hdtype : a.dtype = b.dtype)
    (h : a.elementText i j = b.elementText i j) : a.entry i j = b.entry i j := by
  have hreal {a : NumArray} (ha : a.IsValid) (hc : a.dtype.isComplex = false) :
      a.elementText i j = literal (a.entry i j).re ∧ (a.entry i j).im = 0 := by
    have hload : a.storage.load (a.shape.offset i j) = .real (a.entry i j).re :=
      if_neg (Bool.eq_false_iff.1 (ha.storage.isSome_im.trans hc))
    rw [elementText, hload]
    exact ⟨rfl, Storage.loadComplex_im_of_real ha.storage hc _⟩
  cases hc : a.dtype.isComplex with
  | true =>
      rw [elementText_of_complex ha hc, elementText_of_complex hb (hdtype ▸ hc)] at h
      exact complex_text_injective h
  | false =>
      obtain ⟨htext, him⟩ := hreal ha hc
      obtain ⟨htext', him'⟩ := hreal hb (hdtype ▸ hc)
      rw [htext, htext'] at h
      exact Complex.ext (literal_injective h) (him.trans him'.symm)

theorem eq_of_text_eq (ha : a.IsValid) (hb : b.IsValid) (h : a.text = b.text) : a = b := by
  have hequals (a : NumArray) : '=' ∉ a.bodyText ++ " dtype".toList :=
    List.not_mem_append a.equals_notMem_bodyText (by decide)
  rw [text_eq_bodyText_append, text_eq_bodyText_append] at h
  obtain ⟨hbody, hname⟩ := cut_inj (hequals a) (hequals b) h
  have hdtype := DType.shortName_injective (String.toList_injective hname)
  obtain ⟨hshape, helement⟩ := bodyText_inj ha hb (List.append_cancel_right hbody)
  exact ext_of_entry ha hb hdtype hshape fun i hi j hj =>
    entry_eq_of_elementText_eq ha hb hdtype (helement i hi j hj)

/-- The text of an array tells its element type, its shape and its components,
the signs of zeros included. -/
theorem text_eq_text_iff (ha : a.IsValid) (hb : b.IsValid) : a.text = b.text ↔
    a.dtype = b.dtype ∧ a.shape = b.shape ∧ ∀ i < a.nrows, ∀ j < a.ncols,
      IsSame (a.entry i j).re (b.entry i j).re ∧ IsSame (a.entry i j).im (b.entry i j).im := by
  constructor
  · intro h
    obtain rfl := eq_of_text_eq ha hb h
    exact ⟨rfl, rfl, fun _ _ _ _ => ⟨isSame_iff.2 rfl, isSame_iff.2 rfl⟩⟩
  · rintro ⟨hdtype, hshape, h⟩
    refine congrArg text (ext_of_entry ha hb hdtype hshape fun i hi j hj => ?_)
    exact Complex.ext (isSame_iff.1 (h i hi j hj).1) (isSame_iff.1 (h i hi j hj).2)

/-- A zero and its conjugate are equal as numbers, but not as texts. -/
theorem text_eq_text_iff_loneZero :
    (loneZero == loneZero.conj) = true ∧ loneZero.text ≠ loneZero.conj.text := by
  have hzero : loneZero.IsValid := loneZero_isValid
  refine ⟨by decide +kernel, fun h => ?_⟩
  obtain ⟨-, -, hparts⟩ := (text_eq_text_iff hzero (conj_isValid hzero)).1 h
  have him := (hparts 0 (by decide) 0 (by decide)).2
  exact absurd (isSame_iff.1 him) (by decide +kernel)

end NumArray

end DenseNumeric
