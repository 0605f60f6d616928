import Sbcl.Lib.SortedMap
import Sbcl.Tree.Avltree

/-!
# The AVL tree is a balanced finite map

* `avlDeletionRebalance_spec` : one rebalancing of a node whose children are balanced and differ by
  at most two; `avlInsertionRebalance_eq` : the stricter `ecase` agrees where the heavy child is
  skewed;
* `avlInsert_spec`, `avlDelete_spec` : the step lemmas;
* `run` : any sequence of operations from the empty tree, and what holds after it.
-/

namespace Sbcl.Avltree

open SortedMap (CeilOr FloorOr IsCeil IsFloor Sorted erase_node_eq lookup lookup_node_eq
  lookup_node_gt lookup_node_lt sorted_node)

variable {V : Type} {k key i : Word} {d : V} {l r t : Avltree V}

/-- The heights of the two children of every node differ by at most one. -/
def Balanced : Avltree V → Prop
  | nil => True
  | avlnode _ _ left right =>
    Balanced left ∧ Balanced right ∧ -1 ≤ height left - height right ∧
      height left - height right ≤ 1

/-- Search order: keys strictly increase from left to right. -/
def Ordered (t : Avltree V) : Prop := Sorted (· < ·) Prod.fst t.entries

theorem height_nonneg (t : Avltree V) : 0 ≤ height t := by
  induction t with
  | nil => exact Int.le_refl 0
  | avlnode key data left right ihl ihr => simp only [height]; omega

theorem height_shape (t : Avltree V) : height t = (shape t).height := by
  induction t with
  | nil => rfl
  | avlnode key data left right ihl ihr =>
    simp only [height, shape, BinaryTree.height, ihl, ihr]
    omega

theorem avlCount_eq (t : Avltree V) : avlCount t = t.entries.length := by
  induction t with
  | nil => rfl
  | avlnode key data left right ihl ihr =>
    simp only [avlCount, entries, List.length_append, List.length_cons, ihl, ihr]
    omega

theorem exists_avlnode (h : 0 < height t) : ∃ key data left right,
    t = avlnode key data left right := by
  cases t with
  | nil => simp [height] at h
  | avlnode key data left right => exact ⟨key, data, left, right, rfl⟩

/-- The root is not in perfect balance. -/
def Skewed : Avltree V → Prop
  | nil => False
  | avlnode _ _ left right => height left ≠ height right

/-! ## Rebalancing -/

theorem avlDeletionRebalance_of_balanced (hb : Balanced (avlnode k d l r)) :
    avlDeletionRebalance (avlnode k d l r) = .ok (avlnode k d l r) := by
  obtain ⟨-, -, h1, h2⟩ := hb
  have h : height l - height r = -1 ∨ height l - height r = 0 ∨ height l - height r = 1 := by omega
  rcases h with h | h | h <;> simp [avlDeletionRebalance, avlBalanceFactor, h, bind, Except.bind]

theorem avlDeletionRebalance_left (hl : Balanced l) (hr : Balanced r)
    (h : height l = height r + 2) :
    ∃ t, avlDeletionRebalance (avlnode k d l r) = .ok t ∧ Balanced t ∧ height l ≤ height t ∧
      height t ≤ height l + 1 ∧ (Skewed l → height t = height l) ∧
      entries t = entries l ++ (k, d) :: entries r := by
  have hr0 := height_nonneg r
  obtain ⟨lk, ld, ll, lr, rfl⟩ := exists_avlnode (show 0 < height l by omega)
  obtain ⟨hll, hlr, h1, h2⟩ := hl
  have hbf : height (avlnode lk ld ll lr) - height r = 2 := by omega
  have hll0 := height_nonneg ll
  by_cases hcase : height ll - height lr = -1
  · obtain ⟨mk, md, ml, mr, rfl⟩ := exists_avlnode (show 0 < height lr by omega)
    obtain ⟨hml, hmr, h3, h4⟩ := hlr
    refine ⟨avlnode mk md (avlnode lk ld ll ml) (avlnode k d mr r), ?_, ?_, ?_⟩
    · simp [avlDeletionRebalance, avlBalanceFactor, hbf, hcase, bind, Except.bind,
        avlRotateRight, avlRotateLeft]
    · simp only [height] at h hcase
      simp only [Balanced, height]
      exact ⟨⟨hll, hml, by omega, by omega⟩, ⟨hmr, hr, by omega, by omega⟩, by omega, by omega⟩
    · simp only [height] at h hcase ⊢
      exact ⟨by omega, by omega, fun _ => by omega, by simp [entries]⟩
  · have hcase' : height ll - height lr = 1 ∨ height ll - height lr = 0 := by omega
    simp only [height] at h
    refine ⟨avlnode lk ld ll (avlnode k d lr r), ?_, ?_, ?_⟩
    · rcases hcase' with hc | hc <;>
        simp [avlDeletionRebalance, avlBalanceFactor, hbf, hc, bind, Except.bind, avlRotateRight]
    · simp only [Balanced, height]
      exact ⟨hll, ⟨hlr, hr, by omega, by omega⟩, by omega, by omega⟩
    · simp only [height, Skewed]
      exact ⟨by omega, by omega, fun hs => by omega, by simp [entries]⟩

theorem avlDeletionRebalance_right (hl : Balanced l) (hr : Balanced r)
    (h : height r = height l + 2) :
    ∃ t, avlDeletionRebalance (avlnode k d l r) = .ok t ∧ Balanced t ∧ height r ≤ height t ∧
      height t ≤ height r + 1 ∧ (Skewed r → height t = height r) ∧
      entries t = entries l ++ (k, d) :: entries r := by
  have hl0 := height_nonneg l
  obtain ⟨rk, rd, rl, rr, rfl⟩ := exists_avlnode (show 0 < height r by omega)
  obtain ⟨hrl, hrr, h1, h2⟩ := hr
  have hbf : height l - height (avlnode rk rd rl rr) = -2 := by omega
  have hrr0 := height_nonneg rr
  by_cases hcase : height rl - height rr = 1
  · obtain ⟨mk, md, ml, mr, rfl⟩ := exists_avlnode (show 0 < height rl by omega)
    obtain ⟨hml, hmr, h3, h4⟩ := hrl
    refine ⟨avlnode mk md (avlnode k d l ml) (avlnode rk rd mr rr), ?_, ?_, ?_⟩
    · simp [avlDeletionRebalance, avlBalanceFactor, hbf, hcase, bind, Except.bind,
        avlRotateRight, avlRotateLeft]
    · simp only [height] at h hcase
      simp only [Balanced, height]
      exact ⟨⟨hl, hml, by omega, by omega⟩, ⟨hmr, hrr, by omega, by omega⟩, by omega, by omega⟩
    · simp only [height] at h hcase ⊢
      exact ⟨by omega, by omega, fun _ => by omega, by simp [entries]⟩
  · have hcase' : height rl - height rr = -1 ∨ height rl - height rr = 0 := by omega
    simp only [height] at h
    refine ⟨avlnode rk rd (avlnode k d l rl) rr, ?_, ?_, ?_⟩
    · rcases hcase' with hc | hc <;>
        simp [avlDeletionRebalance, avlBalanceFactor, hbf, hc, bind, Except.bind, avlRotateLeft]
    · simp only [Balanced, height]
      exact ⟨⟨hl, hrl, by omega, by omega⟩, hrr, by omega, by omega⟩
    · simp only [height, Skewed]
      exact ⟨by omega, by omega, fun hs => by omega, by simp [entries]⟩

theorem avlDeletionRebalance_spec (hl : Balanced l) (hr : Balanced r)
    (hlo : -2 ≤ height l - height r) (hhi : height l - height r ≤ 2) :
    ∃ t, avlDeletionRebalance (avlnode k d l r) = .ok t ∧ Balanced t ∧
      entries t = entries (avlnode k d l r) ∧ height (avlnode k d l r) - 1 ≤ height t ∧
      height t ≤ height (avlnode k d l r) ∧ (Balanced (avlnode k d l r) → t = avlnode k d l r) ∧
      (height l = height r + 2 → Skewed l → height t = height l) ∧
      (height r = height l + 2 → Skewed r → height t = height r) := by
  rcases (show height l = height r + 2 ∨ height r = height l + 2 ∨
    (-1 ≤ height l - height r ∧ height l - height r ≤ 1) by omega) with h | h | h
  · obtain ⟨t, ht, hb, h1, h2, h3, he⟩ := avlDeletionRebalance_left (k := k) (d := d) hl hr h
    refine ⟨t, ht, hb, he, ?_, ?_, fun hn => ?_, fun _ => h3, fun _ => by omega⟩
    · simp only [height]; omega
    · simp only [height]; omega
    · obtain ⟨-, -, -, hn⟩ := hn
      omega
  · obtain ⟨t, ht, hb, h1, h2, h3, he⟩ := avlDeletionRebalance_right (k := k) (d := d) hl hr h
    refine ⟨t, ht, hb, he, ?_, ?_, fun hn => ?_, fun _ => by omega, fun _ => h3⟩
    · simp only [height]; omega
    · simp only [height]; omega
    · obtain ⟨-, -, hn, -⟩ := hn
      omega
  · have hn : Balanced (avlnode k d l r) := ⟨hl, hr, h.1, h.2⟩
    exact ⟨_, avlDeletionRebalance_of_balanced hn, hn, rfl, by omega, Int.le_refl _, fun _ => rfl,
      fun _ => by omega, fun _ => by omega⟩

/-- The two rebalancers differ only where the heavy child is in perfect balance. -/
theorem avlInsertionRebalance_eq (hl : height l = height r + 2 → Skewed l)
    (hr : height r = height l + 2 → Skewed r) :
    avlInsertionRebalance (avlnode k d l r) = avlDeletionRebalance (avlnode k d l r) := by
  simp only [avlInsertionRebalance, avlDeletionRebalance, avlBalanceFactor, bind, Except.bind]
  split
  · rename_i h2
    cases l with
    | nil => rfl
    | avlnode lk ld ll lr =>
      have hs : height ll ≠ height lr := hl (by omega)
      have hne : height ll - height lr ≠ 0 := by omega
      simp only
      split <;> simp_all
  · rename_i h2
    cases r with
    | nil => rfl
    | avlnode rk rd rl rr =>
      have hs : height rl ≠ height rr := hr (by omega)
      have hne : height rl - height rr ≠ 0 := by omega
      simp only
      split <;> simp_all
  all_goals rfl

/-! ## Insertion -/

/-- What insertion does to the height of a subtree. A subtree that grows is skewed or a fresh leaf,
which is what keeps the inner `ecase` of the insertion rebalancer from falling through. -/
def Grown (t t' : Avltree V) : Prop :=
  height t' = height t ∨ height t' = height t + 1 ∧ (Skewed t' ∨ height t' = 1)

theorem Grown.skewed (h : Grown t l) (hb : height t ≤ height r + 1)
    (hheavy : height l = height r + 2) : Skewed l := by
  have := height_nonneg r
  rcases h with h | ⟨h, hs | hs⟩
  · omega
  · exact hs
  · omega

theorem avlInsertionRebalance_grown {l' r' : Avltree V} (hb : Balanced (avlnode k d l r))
    (hl' : Balanced l')
    (hr' : Balanced r') (hl : Grown l l') (hr : Grown r r')
    (hone : height l' = height l ∨ height r' = height r) :
    ∃ t, avlInsertionRebalance (avlnode k d l' r') = .ok t ∧ Balanced t ∧
      entries t = entries (avlnode k d l' r') ∧ Grown (avlnode k d l r) t := by
  obtain ⟨-, -, h1, h2⟩ := hb
  have hhl : height l ≤ height l' ∧ height l' ≤ height l + 1 := by
    rcases hl with hl | hl <;> omega
  have hhr : height r ≤ height r' ∧ height r' ≤ height r + 1 := by
    rcases hr with hr | hr <;> omega
  have hskewl : height l' = height r' + 2 → Skewed l' := hl.skewed (by omega)
  have hskewr : height r' = height l' + 2 → Skewed r' := hr.skewed (by omega)
  obtain ⟨t, ht, hbt, het, -, -, hsame, hleft, hright⟩ :=
    avlDeletionRebalance_spec (k := k) (d := d) hl' hr'
    (by omega) (by omega)
  refine ⟨t, by rw [avlInsertionRebalance_eq hskewl hskewr, ht], hbt, het, ?_⟩
  by_cases hheavy : height l' = height r' + 2 ∨ height r' = height l' + 2
  · left
    simp only [height]
    rcases hheavy with hheavy | hheavy
    · have hht := hleft hheavy (hskewl hheavy)
      omega
    · have hht := hright hheavy (hskewr hheavy)
      omega
  · rw [hsame ⟨hl', hr', by omega, by omega⟩]
    by_cases hgrow : height l = height r ∧ height l' ≠ height r'
    · exact Or.inr ⟨by simp only [height]; omega, Or.inl hgrow.2⟩
    · left
      simp only [height]
      omega

theorem avlInsert_spec (ho : Ordered t) (hb : Balanced t)
    (h : lookup (· < ·) Prod.fst k t.entries = none) :
    ∃ t', avlInsert t k d = .ok t' ∧ Balanced t' ∧
      t'.entries = SortedMap.insert (· < ·) Prod.fst (k, d) t.entries ∧ Grown t t' := by
  induction t with
  | nil => exact ⟨_, rfl, ⟨trivial, trivial, by simp [height], by simp [height]⟩, rfl,
    Or.inr ⟨rfl, Or.inr rfl⟩⟩
  | avlnode nodeKey data left right ihl ihr =>
    obtain ⟨hol, hor, -⟩ := (sorted_node _ _).mp ho
    have ⟨hbl, hbr, _⟩ := hb
    rcases word_trichotomy k nodeKey with hlt | rfl | hgt
    · obtain ⟨left', hins, hbl', hel, hg⟩ := ihl hol hbl ((lookup_node_lt ho hlt).symm.trans h)
      obtain ⟨t', ht', hbt', het', hg'⟩ :=
        avlInsertionRebalance_grown hb hbl' hbr hg (Or.inl rfl) (Or.inr rfl)
      refine ⟨t', by simp [avlInsert, hlt, hins, ht', bind, Except.bind], hbt', ?_, hg'⟩
      rw [het', entries, entries, SortedMap.insert_node_lt ho hlt, hel]
    · exact absurd ((lookup_node_eq ho rfl).symm.trans h) (by simp)
    obtain ⟨right', hins, hbr', her, hg⟩ := ihr hor hbr ((lookup_node_gt ho hgt).symm.trans h)
    obtain ⟨t', ht', hbt', het', hg'⟩ :=
      avlInsertionRebalance_grown hb hbl hbr' (Or.inl rfl) hg (Or.inl rfl)
    have hnlt : ¬ k < nodeKey := asymm_of (· < ·) hgt
    refine ⟨t', by simp [avlInsert, hnlt, hgt, hins, ht', bind, Except.bind], hbt', ?_, hg'⟩
    rw [het', entries, entries, SortedMap.insert_node_gt ho hgt, her]

theorem avlInsert_duplicate (ho : Ordered t) (h : lookup (· < ·) Prod.fst k t.entries ≠ none) :
    avlInsert t k d = .error (.duplicateKey k) := by
  induction t with
  | nil => exact absurd rfl h
  | avlnode nodeKey data left right ihl ihr =>
    obtain ⟨hol, hor, -⟩ := (sorted_node _ _).mp ho
    rcases word_trichotomy k nodeKey with hlt | rfl | hgt
    · rw [entries, lookup_node_lt ho hlt] at h
      simp [avlInsert, hlt, ihl hol h, bind, Except.bind]
    · simp [avlInsert]
    · rw [entries, lookup_node_gt ho hgt] at h
      simp [avlInsert, asymm_of (· < ·) hgt, hgt, ihr hor h, bind, Except.bind]

/-! ## Deletion -/

theorem avlFindmin_spec (h : t.isNil = false) : ∃ minKey minData right rest,
    avlFindmin t = .ok (avlnode minKey minData nil right) ∧
    t.entries = (minKey, minData) :: rest := by
  induction t with
  | nil => simp [isNil] at h
  | avlnode key data left right ihl ihr =>
    cases left with
    | nil => exact ⟨key, data, right, right.entries, rfl, rfl⟩
    | avlnode lkey ldata lleft lright =>
      obtain ⟨mk, md, mr, rest, hmin, hent⟩ := ihl rfl
      refine ⟨mk, md, mr, rest ++ (key, data) :: right.entries, by rw [avlFindmin, hmin]; simp, ?_⟩
      rw [entries, hent, List.cons_append]

theorem eq_nil_of_isNil (h : t.isNil = true) : t = nil := by
  cases t with
  | nil => rfl
  | avlnode key data left right => simp [isNil] at h

theorem avlDelete_lt (h : k < key) :
    avlDelete k (avlnode key d l r) =
      (avlDelete k l).bind fun left => avlDeletionRebalance (avlnode key d left r) := by
  have hne : key ≠ k := (ne_of_irrefl h).symm
  have hngt : ¬ key < k := asymm_of (· < ·) h
  rw [avlDelete]
  cases hl : l.isNil
  · cases hr : r.isNil
    · cases avlDelete k l <;> simp [hne, h, bind, Except.bind, pure, Except.pure]
    · rw [eq_nil_of_isNil hr]
      cases avlDelete k l <;> simp [hne, hngt, bind, Except.bind, pure, Except.pure]
  · rw [eq_nil_of_isNil hl]
    cases hr : r.isNil <;> simp [hne, h, avlDelete, bind, Except.bind, pure, Except.pure]

theorem avlDelete_gt (h : key < k) :
    avlDelete k (avlnode key d l r) =
      (avlDelete k r).bind fun right => avlDeletionRebalance (avlnode key d l right) := by
  have hne : key ≠ k := ne_of_irrefl h
  have hngt : ¬ k < key := asymm_of (· < ·) h
  rw [avlDelete]
  cases hr : r.isNil
  · cases hl : l.isNil
    · cases avlDelete k r <;> simp [hne, hngt, bind, Except.bind, pure, Except.pure]
    · rw [eq_nil_of_isNil hl]
      cases avlDelete k r <;> simp [hne, hngt, bind, Except.bind, pure, Except.pure]
  · rw [eq_nil_of_isNil hr]
    cases hl : l.isNil <;> simp [hne, h, avlDelete, bind, Except.bind, pure, Except.pure]

/-- What deletion does to the height of a subtree. -/
def Shrunk (t t' : Avltree V) : Prop := height t - 1 ≤ height t' ∧ height t' ≤ height t

theorem avlDeletionRebalance_shrunk {e : V} {l' r' : Avltree V} (hb : Balanced (avlnode k d l r))
    (hl' : Balanced l') (hr' : Balanced r') (hl : height l' ≤ height l) (hr : height r' ≤ height r)
    (hone : height l + height r - 1 ≤ height l' + height r') :
    ∃ t, avlDeletionRebalance (avlnode i e l' r') = .ok t ∧ Balanced t ∧
      entries t = entries (avlnode i e l' r') ∧ Shrunk (avlnode k d l r) t := by
  obtain ⟨-, -, h1, h2⟩ := hb
  obtain ⟨t, ht, hbt, het, hlo, hhi, hsame, -⟩ :=
    avlDeletionRebalance_spec (k := i) (d := e) hl' hr'
    (by omega) (by omega)
  refine ⟨t, ht, hbt, het, ?_⟩
  by_cases hheavy : height l' = height r' + 2 ∨ height r' = height l' + 2
  · simp only [height] at hlo hhi
    simp only [Shrunk, height]
    omega
  · rw [hsame ⟨hl', hr', by omega, by omega⟩]
    simp only [Shrunk, height]
    omega

theorem avlDeletionRebalance_same (hb : Balanced t) (h : t.isNil = false) :
    avlDeletionRebalance t = .ok t := by
  cases t with
  | nil => simp [isNil] at h
  | avlnode key data left right => exact avlDeletionRebalance_of_balanced hb

/-- The step lemma of deletion. -/
theorem avlDelete_spec (ho : Ordered t) (hb : Balanced t) :
    ∃ t', avlDelete k t = .ok t' ∧ Balanced t' ∧
      t'.entries = SortedMap.erase (· < ·) Prod.fst k t.entries ∧ Shrunk t t' := by
  induction t generalizing k with
  | nil => exact ⟨nil, rfl, trivial, rfl, by simp [Shrunk, height]⟩
  | avlnode nodeKey data left right ihl ihr =>
    obtain ⟨hol, hor, -⟩ := (sorted_node _ _).mp ho
    have ⟨hbl, hbr, h1, h2⟩ := hb
    rcases word_trichotomy k nodeKey with hlt | rfl | hgt
    · obtain ⟨left', hdel, hbl', hel, hs⟩ := ihl (k := k) hol hbl
      obtain ⟨t', ht', hbt', het', hs'⟩ := avlDeletionRebalance_shrunk (i := nodeKey) (e := data)
        hb hbl' hbr hs.2 le_rfl (by have := hs.1; omega)
      refine ⟨t', by simp [avlDelete_lt hlt, hdel, Except.bind, ht'], hbt', ?_, hs'⟩
      rw [het', entries, entries, SortedMap.erase_node_lt ho hlt, hel]
    · rw [entries, erase_node_eq ho rfl]
      have hl0 := height_nonneg left
      have hr0 := height_nonneg right
      cases hr : right.isNil
      · cases hl : left.isNil
        · -- both children: the in-order successor moves up
          obtain ⟨mk, md, mr, rest, hmin, hent⟩ := avlFindmin_spec hr
          obtain ⟨right', hdel, hbr', her, hs⟩ := ihr (k := mk) hor hbr
          obtain ⟨t', ht', hbt', het', hs'⟩ := avlDeletionRebalance_shrunk (i := mk) (e := md)
            hb hbl hbr' le_rfl hs.2 (by have := hs.1; omega)
          refine ⟨t', ?_, hbt', ?_, hs'⟩
          · simp [avlDelete, hl, hr, hmin, hdel, ht', bind, Except.bind, pure, Except.pure]
          have hrest : SortedMap.erase (· < ·) Prod.fst mk right.entries = rest := by
            have hso : Sorted (· < ·) Prod.fst ([] ++ (mk, md) :: rest) := hent ▸ hor
            rw [hent]
            exact erase_node_eq hso rfl
          rw [het', entries, her, hrest, hent]
        · -- right child only
          rw [eq_nil_of_isNil hl] at h1 h2 ⊢
          refine ⟨right, ?_, hbr, rfl, ?_⟩
          · simp [avlDelete, hr, avlDeletionRebalance_same hbr hr, bind, Except.bind,
              pure, Except.pure]
          · simp only [Shrunk, height]
            omega
      · rw [eq_nil_of_isNil hr] at h1 h2 ⊢
        refine ⟨left, ?_, hbl, by simp [entries], ?_⟩
        · cases hl : left.isNil
          · simp [avlDelete, hl, avlDeletionRebalance_same hbl hl, bind, Except.bind,
              pure, Except.pure]
          · simp [avlDelete, eq_nil_of_isNil hl, bind, Except.bind, pure, Except.pure]
        · simp only [Shrunk, height] at h2 ⊢
          omega
    · obtain ⟨right', hdel, hbr', her, hs⟩ := ihr (k := k) hor hbr
      obtain ⟨t', ht', hbt', het', hs'⟩ := avlDeletionRebalance_shrunk (i := nodeKey) (e := data)
        hb hbl hbr' le_rfl hs.2 (by have := hs.1; omega)
      refine ⟨t', by simp [avlDelete_gt hgt, hdel, Except.bind, ht'], hbt', ?_, hs'⟩
      rw [het', entries, entries, SortedMap.erase_node_gt ho hgt, her]

theorem avlFind_spec (ho : Ordered t) :
    (avlFind k t).nodeEntry = lookup (· < ·) Prod.fst k t.entries := by
  induction t with
  | nil => rfl
  | avlnode nodeKey data left right ihl ihr =>
    obtain ⟨hol, hor, -⟩ := (sorted_node _ _).mp ho
    rcases word_trichotomy k nodeKey with hlt | rfl | hgt
    · simp [avlFind, hlt, asymm_of (· < ·) hlt, ihl hol, entries, lookup_node_lt ho hlt]
    · simp [avlFind, nodeEntry, entries, lookup_node_eq ho rfl]
    · simp [avlFind, hgt, ihr hor, entries, lookup_node_gt ho hgt]

theorem avlFindLEIn_spec (ho : Ordered t) (result : Avltree V) :
    FloorOr (· < ·) Prod.fst k t.entries result.nodeEntry (avlFindLEIn k t result).nodeEntry := by
  induction t generalizing result with
  | nil => exact FloorOr.nil
  | avlnode nodeKey data left right ihl ihr =>
    obtain ⟨hol, hor, hax, hxb, -⟩ := (sorted_node _ _).mp ho
    rcases word_trichotomy k nodeKey with hlt | rfl | hgt
    · rw [avlFindLEIn, if_neg (asymm_of (· < ·) hlt), if_pos hlt]
      exact FloorOr.node_lt hxb hlt (ihl hol result)
    · rw [avlFindLEIn, if_neg (irrefl_of (· < ·) k), if_neg (irrefl_of (· < ·) k)]
      exact FloorOr.node_eq hax hxb rfl
    · rw [avlFindLEIn, if_pos hgt]
      exact FloorOr.node_gt hax hxb hgt (ihr hor _)

theorem avlFindGEIn_spec (ho : Ordered t) (result : Avltree V) :
    CeilOr (· < ·) Prod.fst k t.entries result.nodeEntry (avlFindGEIn k t result).nodeEntry := by
  induction t generalizing result with
  | nil => exact CeilOr.nil
  | avlnode nodeKey data left right ihl ihr =>
    obtain ⟨hol, hor, hax, hxb, -⟩ := (sorted_node _ _).mp ho
    rcases word_trichotomy k nodeKey with hlt | rfl | hgt
    · rw [avlFindGEIn, if_neg (asymm_of (· < ·) hlt), if_pos hlt]
      exact CeilOr.node_lt hax hxb hlt (ihl hol _)
    · rw [avlFindGEIn, if_neg (irrefl_of (· < ·) k), if_neg (irrefl_of (· < ·) k)]
      exact CeilOr.node_eq hax hxb rfl
    · rw [avlFindGEIn, if_pos hgt]
      exact CeilOr.node_gt hax hgt (ihr hor result)

/-! ## Runs -/

inductive Op (V : Type) where
  | insert (key : Word) (value : V)
  | delete (key : Word)

def apply (t : Avltree V) : Op V → Except Err (Avltree V)
  | .insert key value => avlInsert t key value
  | .delete key => avlDelete key t

/-- One operation on the variable that holds the tree: an error leaves it as it was. -/
def step (t : Avltree V) (op : Op V) : Avltree V := (apply t op).toOption.getD t

/-- The tree after `ops`, from the empty one. -/
def run (ops : List (Op V)) : Avltree V := ops.foldl step nil

/-- The finite map that `op` makes of `m`. A present key is not inserted again. -/
def stepMap (m : Word → Option V) : Op V → Word → Option V
  | .insert key value => if m key = none then Function.update m key (some value) else m
  | .delete key => Function.update m key none

/-- The finite map after `ops`. -/
def runMap (ops : List (Op V)) : Word → Option V := ops.foldl stepMap fun _ => none

/-- What holds of the tree after any run, over the finite map `m` of that run. -/
structure Valid (t : Avltree V) (m : Word → Option V) : Prop where
  ordered : Ordered t
  balanced : Balanced t
  contents : ∀ key, (lookup (· < ·) Prod.fst key t.entries).map Prod.snd = m key

/-- How an operation ends on a tree of contents `m`: only a present key is refused, no accessor
meets `nil` and no `ecase` falls through. -/
def Outcome (m : Word → Option V) (op : Op V) : Except Err (Avltree V) → Prop
  | .ok _ => ∀ key value, op = .insert key value → m key = none
  | .error e => ∃ key value, op = .insert key value ∧ m key ≠ none ∧ e = .duplicateKey key

variable {m : Word → Option V}

theorem Valid.lookup_eq_none (h : Valid t m) : lookup (· < ·) Prod.fst k t.entries = none ↔
    m k = none := by
  rw [← h.contents k, Option.map_eq_none_iff]

theorem Valid.outcome (h : Valid t m) (op : Op V) : Outcome m op (apply t op) := by
  cases op with
  | insert key value =>
    by_cases hm : m key = none
    · obtain ⟨t', ht', -⟩ :=
        avlInsert_spec (d := value) h.ordered h.balanced (h.lookup_eq_none.mpr hm)
      rw [apply, ht']
      rintro key' value' ⟨⟩
      exact hm
    · rw [apply, avlInsert_duplicate h.ordered fun hl => hm (h.lookup_eq_none.mp hl)]
      exact ⟨key, value, rfl, hm, rfl⟩
  | delete key =>
    obtain ⟨t', ht', -⟩ := avlDelete_spec (k := key) h.ordered h.balanced
    rw [apply, ht']
    rintro key' value' ⟨⟩

theorem Valid.step (h : Valid t m) (op : Op V) : Valid (step t op) (stepMap m op) := by
  cases op with
  | insert key value =>
    by_cases hm : m key = none
    · obtain ⟨t', ht', hb, he, -⟩ :=
        avlInsert_spec (d := value) h.ordered h.balanced (h.lookup_eq_none.mpr hm)
      have hstep : Avltree.step t (.insert key value) = t' := by simp [Avltree.step, apply, ht',
        Except.toOption]
      rw [hstep, stepMap, if_pos hm]
      refine ⟨by rw [Ordered, he]; exact h.ordered.insert _, hb, fun key' => ?_⟩
      rw [he, SortedMap.lookup_insert h.ordered, Function.update_apply, ← h.contents]
      split_ifs <;> rfl
    · have hdup := avlInsert_duplicate (d := value) h.ordered fun hl => hm (h.lookup_eq_none.mp hl)
      have hstep : Avltree.step t (.insert key value) = t := by
        simp [Avltree.step, apply, hdup, Except.toOption]
      rw [hstep, stepMap, if_neg hm]
      exact h
  | delete key =>
    obtain ⟨t', ht', hb, he, -⟩ := avlDelete_spec (k := key) h.ordered h.balanced
    have hstep : Avltree.step t (.delete key) = t' := by simp [Avltree.step, apply, ht',
      Except.toOption]
    rw [hstep, stepMap]
    refine ⟨by rw [Ordered, he]; exact h.ordered.erase _, hb, fun key' => ?_⟩
    rw [he, SortedMap.lookup_erase h.ordered, Function.update_apply, ← h.contents]
    split_ifs <;> rfl

theorem Valid.nil : Valid (nil : Avltree V) fun _ => none :=
  ⟨List.Pairwise.nil, trivial, fun _ => rfl⟩

theorem Valid.foldl (h : Valid t m) (ops : List (Op V)) :
    Valid (ops.foldl Avltree.step t) (ops.foldl stepMap m) := by
  induction ops generalizing t m with
  | nil => exact h
  | cons op ops ih => exact ih (h.step op)

theorem valid_run (ops : List (Op V)) : Valid (run ops) (runMap ops) := Valid.nil.foldl ops

/-- Every subtree, the tree itself included. -/
def subtrees : Avltree V → List (Avltree V)
  | nil => [nil]
  | avlnode key data left right => avlnode key data left right :: (subtrees left ++ subtrees right)

/-- **The AVL tree after any sequence of insertions and deletions.** -/
theorem avl_run (ops : List (Op V)) :
    Ordered (run ops) ∧ Balanced (run ops) ∧
    (∀ t ∈ subtrees (run ops), height t = (shape t).height) ∧
      (∀ key, (lookup (· < ·) Prod.fst key (run ops).entries).map Prod.snd = runMap ops key) ∧
      (∀ op, Outcome (runMap ops) op (apply (run ops) op)) ∧
      ∀ key, (avlFind key (run ops)).nodeEntry = lookup (· < ·) Prod.fst key (run ops).entries ∧
        IsFloor (· < ·) Prod.fst key (run ops).entries (avlFindLE key (run ops)).nodeEntry ∧
        IsCeil (· < ·) Prod.fst key (run ops).entries (avlFindGE key (run ops)).nodeEntry := by
  have h := valid_run ops
  refine ⟨h.ordered, h.balanced, fun t _ => height_shape t, h.contents, h.outcome,
    fun key => ⟨?_, ?_, ?_⟩⟩
  · exact avlFind_spec h.ordered
  · exact (avlFindLEIn_spec h.ordered nil).isFloor
  · exact (avlFindGEIn_spec h.ordered nil).isCeil

end Sbcl.Avltree
