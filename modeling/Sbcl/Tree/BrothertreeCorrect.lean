import Sbcl.Lib.SortedSeq
import Sbcl.Tree.Brothertree

/-!
# Brother trees stay valid, and hold the key sequence

* `Valid` : all leaves at one depth, no unary child of a unary node, a binary brother for every
  unary node, and none of the temporary nodes; `Br t n` is validity at height `n` as one recursion;
* `Tern t n` : the ternary nodes that insertion hands upwards; `Weak t n` : the unary nodes,
  possibly with a unary child, that deletion hands upwards;
* `insert_spec`, `delete_spec` : the operations keep validity and act on the in-order keys.
-/

namespace Sbcl.Brothertree

variable {a b k : Word} {l r t u : Brothertree} {n : Nat}
variable {c l' r' y : Brothertree}

/-- The in-order key sequence. -/
def keys : Brothertree → List Word
  | nil => []
  | L2 a => [a]
  | N1 child => keys child
  | N2 left key right => keys left ++ key :: keys right
  | N3 left key1 middle key2 right => keys left ++ key1 :: (keys middle ++ key2 :: keys right)

/-- Keys in order; equal keys may repeat. -/
def Ordered (t : Brothertree) : Prop := (keys t).Pairwise (· ≤ ·)

/-- None of the temporary nodes occurs. -/
def NoTemporary : Brothertree → Prop
  | nil => True
  | N1 child => NoTemporary child
  | N2 left _ right => NoTemporary left ∧ NoTemporary right
  | _ => False

/-- Every leaf is at depth `n`. -/
def Depth : Brothertree → Nat → Prop
  | nil, 0 => True
  | L2 _, 0 => True
  | N1 child, n + 1 => Depth child n
  | N2 left _ right, n + 1 => Depth left n ∧ Depth right n
  | N3 left _ middle _ right, n + 1 => Depth left n ∧ Depth middle n ∧ Depth right n
  | _, _ => False

/-- A unary node never has a unary child. -/
def UnaryOk : Brothertree → Prop
  | N1 child => unaryNodeP child = false ∧ UnaryOk child
  | N2 left _ right => UnaryOk left ∧ UnaryOk right
  | N3 left _ middle _ right => UnaryOk left ∧ UnaryOk middle ∧ UnaryOk right
  | _ => True

/-- The brother of a unary node is binary. -/
def BrotherOk : Brothertree → Prop
  | N1 child => BrotherOk child
  | N2 left _ right => (unaryNodeP left = true → binaryNodeP right = true) ∧
    (unaryNodeP right = true → binaryNodeP left = true) ∧ BrotherOk left ∧ BrotherOk right
  | N3 left _ middle _ right => BrotherOk left ∧ BrotherOk middle ∧ BrotherOk right
  | _ => True

structure Valid (t : Brothertree) : Prop where
  depth : ∃ n, Depth t n
  unary : UnaryOk t
  brother : BrotherOk t
  noTemporary : NoTemporary t

/-- Validity at height `n`. -/
def Br : Brothertree → Nat → Prop
  | nil, 0 => True
  | N1 child, n + 1 => Br child n ∧ unaryNodeP child = false
  | N2 left _ right, n + 1 => Br left n ∧ Br right n ∧
    ¬ (unaryNodeP left = true ∧ unaryNodeP right = true)
  | _, _ => False

theorem Br.cases (h : Br t n) : t = nil ∧ n = 0 ∨
    (∃ c m, t = N1 c ∧ n = m + 1 ∧ Br c m ∧ unaryNodeP c = false) ∨
    ∃ l k r m, t = N2 l k r ∧ n = m + 1 ∧ Br l m ∧ Br r m ∧
      ¬ (unaryNodeP l = true ∧ unaryNodeP r = true) := by
  match t, n, h with
  | nil, 0, _ => exact Or.inl ⟨rfl, rfl⟩
  | N1 c, m + 1, h => exact Or.inr (Or.inl ⟨c, m, rfl, rfl, h⟩)
  | N2 l k r, m + 1, h => exact Or.inr (Or.inr ⟨l, k, r, m, rfl, rfl, h⟩)

theorem Br.binary (h : Br t (n + 1)) (hu : unaryNodeP t = false) : binaryNodeP t = true := by
  match t, h, hu with
  | N2 .., _, _ => rfl

theorem Br.binary_of_brother (hl : Br l n) (hr : Br r n) (hu : unaryNodeP l = true)
    (h : ¬ (unaryNodeP l = true ∧ unaryNodeP r = true)) : binaryNodeP r = true := by
  match l, n, hl, hu with
  | N1 c, m + 1, _, _ => exact hr.binary (by simpa [unaryNodeP] using h)

theorem Br.valid_aux (h : Br t n) : Depth t n ∧ UnaryOk t ∧ BrotherOk t ∧ NoTemporary t := by
  induction t generalizing n with
  | nil => match n, h with | 0, _ => exact ⟨trivial, trivial, trivial, trivial⟩
  | L2 a => exact absurd h (by simp [Br])
  | N1 c ih =>
    match n, h with
    | m + 1, ⟨hc, hu⟩ =>
      obtain ⟨h1, h2, h3, h4⟩ := ih hc
      exact ⟨h1, ⟨hu, h2⟩, h3, h4⟩
  | N2 l k r ihl ihr =>
    match n, h with
    | m + 1, ⟨hl, hr, hb⟩ =>
      obtain ⟨l1, l2, l3, l4⟩ := ihl hl
      obtain ⟨r1, r2, r3, r4⟩ := ihr hr
      exact ⟨⟨l1, r1⟩, ⟨l2, r2⟩, ⟨fun hu => hl.binary_of_brother hr hu hb,
        fun hu => hr.binary_of_brother hl hu fun h => hb h.symm, l3, r3⟩, l4, r4⟩
  | N3 => exact absurd h (by simp [Br])

theorem Br.valid (h : Br t n) : Valid t :=
  ⟨⟨n, h.valid_aux.1⟩, h.valid_aux.2.1, h.valid_aux.2.2.1, h.valid_aux.2.2.2⟩

theorem Valid.br_aux (hd : Depth t n) (hu : UnaryOk t) (hb : BrotherOk t)
    (ht : NoTemporary t) : Br t n := by
  induction t generalizing n with
  | nil => match n, hd with | 0, _ => trivial
  | L2 a => exact ht.elim
  | N1 c ih =>
    match n, hd with
    | m + 1, hd => exact ⟨ih hd hu.2 hb ht, hu.1⟩
  | N2 l k r ihl ihr =>
    match n, hd with
    | m + 1, hd =>
      refine ⟨ihl hd.1 hu.1 hb.2.2.1 ht.1, ihr hd.2 hu.2 hb.2.2.2 ht.2, fun ⟨h1, h2⟩ => ?_⟩
      have hbin := hb.1 h1
      match r, h2, hbin with
      | N1 _, _, hbin => simp [binaryNodeP] at hbin
  | N3 => exact ht.elim

theorem Valid.br (h : Valid t) : ∃ n, Br t n := by
  obtain ⟨n, hd⟩ := h.depth
  exact ⟨n, Valid.br_aux hd h.unary h.brother h.noTemporary⟩

/-! ## Insertion -/

/-- A ternary node on its way up: its outer subtrees are not unary. -/
def Tern : Brothertree → Nat → Prop
  | N3 t1 _ t2 _ t3, n + 1 => Br t1 n ∧ Br t2 n ∧ Br t3 n ∧ unaryNodeP t1 = false ∧
  unaryNodeP t3 = false
  | _, _ => False

namespace Insert

/-- What inserting into a valid tree `x` of height `n` hands to its parent. -/
def Out (x : Brothertree) (n : Nat) (y : Brothertree) : Prop :=
  match x with
  | nil => ∃ a, y = L2 a
  | N1 _ => Br y n
  | _ => binaryNodeP y = true ∧ Br y n ∨ Tern y n

theorem n1_spec (hc : Br c n) (hu : unaryNodeP c = false) (h : Out c n y) :
    Br (n1 y) (n + 1) ∧ keys (n1 y) = keys y := by
  rcases hc.cases with ⟨rfl, rfl⟩ | ⟨c, m, rfl, rfl, -⟩ | ⟨l, k, r, m, rfl, rfl, -⟩
  · obtain ⟨a, rfl⟩ := h
    exact ⟨⟨trivial, trivial, by simp [unaryNodeP]⟩, rfl⟩
  · simp [unaryNodeP] at hu
  rcases h with ⟨hb, h⟩ | h
  · match y, hb, h with
    | N2 l k r, _, h => exact ⟨⟨h, rfl⟩, rfl⟩
  · match y, h with
    | N3 t1 a1 t2 a2 t3, ⟨h1, h2, h3, hu1, hu3⟩ =>
      exact ⟨⟨⟨h1, h2, by simp [hu1]⟩, ⟨h3, hu3⟩, by simp [unaryNodeP]⟩, by simp [n1, keys]⟩

theorem n2_of_br (hl : Br l n) (hr : Br r n) : n2 l k r = .ok (N2 l k r) := by
  rcases hl.cases with ⟨rfl, rfl⟩ | ⟨_, m, rfl, rfl, -⟩ | ⟨_, _, _, m, rfl, rfl, -⟩ <;>
    rcases hr.cases with ⟨rfl, hn⟩ | ⟨_, _, rfl, hn, -⟩ | ⟨_, _, _, _, rfl, hn, -⟩ <;>
    rfl

theorem n2_left (h : Br (N2 l k r) (n + 1)) (hout : Out l n l') :
    ∃ y, n2 l' k r = .ok y ∧ (binaryNodeP y = true ∧ Br y (n + 1) ∨ Tern y (n + 1)) ∧
      keys y = keys l' ++ k :: keys r := by
  obtain ⟨hbl, hbr, hb⟩ := h
  rcases hbl.cases with ⟨rfl, rfl⟩ | ⟨c, m, rfl, rfl, -⟩ | ⟨ll, lk, lr, m, rfl, rfl, -⟩
  · obtain ⟨a1, rfl⟩ := hout
    match r, hbr with
    | nil, _ => exact ⟨_, rfl, Or.inr ⟨trivial, trivial, trivial, rfl, rfl⟩, by simp [keys]⟩
  · have hru : unaryNodeP r = false := by simpa [unaryNodeP] using hb
    exact ⟨N2 l' k r, n2_of_br hout hbr, Or.inl ⟨rfl, hout, hbr, by simp [hru]⟩, rfl⟩
  rcases hout with ⟨hbin, hl'⟩ | ht
  · have hlu : unaryNodeP l' = false := by cases l' <;> simp_all [unaryNodeP, binaryNodeP]
    exact ⟨N2 l' k r, n2_of_br hl' hbr, Or.inl ⟨rfl, hl', hbr, by simp [hlu]⟩, rfl⟩
  match l', ht with
  | N3 t1 a1 t2 a2 t3, ⟨h1, h2, h3, hu1, hu3⟩ =>
    rcases hbr.cases with ⟨-, hm⟩ | ⟨t4, m', rfl, hm, h4, hu4⟩ | ⟨rl, rk, rr, m', rfl,
      hm, hrl, hrr, hrb⟩
    · omega
    · obtain rfl : m = m' := by omega
      exact ⟨_, rfl,
        Or.inl ⟨rfl, ⟨h1, h2, by simp [hu1]⟩, ⟨h3, h4, by simp [hu3]⟩, by simp [unaryNodeP]⟩,
        by simp [keys]⟩
    · exact ⟨_, rfl, Or.inr ⟨⟨h1, h2, by simp [hu1]⟩, ⟨h3, hu3⟩, hbr, rfl, rfl⟩, by simp [keys]⟩

theorem n2_right (h : Br (N2 l k r) (n + 1)) (hout : Out r n r') :
    ∃ y, n2 l k r' = .ok y ∧ (binaryNodeP y = true ∧ Br y (n + 1) ∨ Tern y (n + 1)) ∧
      keys y = keys l ++ k :: keys r' := by
  obtain ⟨hbl, hbr, hb⟩ := h
  rcases hbr.cases with ⟨rfl, rfl⟩ | ⟨c, m, rfl, rfl, -⟩ | ⟨rl, rk, rr, m, rfl, rfl, -⟩
  · obtain ⟨a2, rfl⟩ := hout
    match l, hbl with
    | nil, _ => exact ⟨_, rfl, Or.inr ⟨trivial, trivial, trivial, rfl, rfl⟩, by simp [keys]⟩
  · have hlu : unaryNodeP l = false := by simpa [unaryNodeP] using hb
    exact ⟨N2 l k r', n2_of_br hbl hout, Or.inl ⟨rfl, hbl, hout, by simp [hlu]⟩, rfl⟩
  rcases hout with ⟨hbin, hr'⟩ | ht
  · have hru : unaryNodeP r' = false := by cases r' <;> simp_all [unaryNodeP, binaryNodeP]
    exact ⟨N2 l k r', n2_of_br hbl hr', Or.inl ⟨rfl, hbl, hr', by simp [hru]⟩, rfl⟩
  match r', ht with
  | N3 t2 a2 t3 a3 t4, ⟨h2, h3, h4, hu2, hu4⟩ =>
    rcases hbl.cases with ⟨-, hm⟩ | ⟨t1, m', rfl, hm, h1, hu1⟩ | ⟨ll, lk, lr, m', rfl,
      hm, hll, hlr, hlb⟩
    · omega
    · obtain rfl : m = m' := by omega
      exact ⟨_, rfl,
        Or.inl ⟨rfl, ⟨h1, h2, by simp [hu1]⟩, ⟨h3, h4, by simp [hu4]⟩, by simp [unaryNodeP]⟩,
        by simp [keys]⟩
    · exact ⟨_, rfl, Or.inr ⟨hbl, ⟨h2, hu2⟩, ⟨h3, h4, by simp [hu4]⟩, rfl, rfl⟩, by simp [keys]⟩

/-- The step lemma of insertion. -/
theorem ins_spec (h : Br t n) (ho : Ordered t) :
    ∃ y, ins a t = .ok y ∧ Out t n y ∧ keys y = (keys t).orderedInsert (· ≤ ·) a := by
  induction t generalizing n with
  | nil => exact ⟨L2 a, rfl, ⟨a, rfl⟩, rfl⟩
  | L2 b => exact absurd h (by simp [Br])
  | N1 c ih =>
    match n, h with
    | m + 1, ⟨hc, hu⟩ =>
      obtain ⟨y, hy, hout, hk⟩ := ih hc ho
      obtain ⟨hbr, hkeys⟩ := n1_spec hc hu hout
      exact ⟨n1 y, by rw [ins, hy]; rfl, hbr, hkeys.trans hk⟩
  | N2 l b r ihl ihr =>
    obtain ⟨hol, hor, hlb, hbr, -⟩ := (SortedSeq.pairwise_node _).mp ho
    match n, h with
    | m + 1, h =>
      by_cases hab : a ≤ b
      · obtain ⟨l', hl', hout, hk⟩ := ihl h.1 hol
        obtain ⟨y, hy, hyo, hyk⟩ := n2_left h hout
        refine ⟨y, by rw [ins, if_pos hab, hl']; exact hy, hyo, ?_⟩
        rw [hyk, hk, keys, SortedSeq.orderedInsert_node_le _ hab]
      · obtain ⟨r', hr', hout, hk⟩ := ihr h.2.1 hor
        obtain ⟨y, hy, hyo, hyk⟩ := n2_right h hout
        refine ⟨y, by rw [ins, if_neg hab, hr']; exact hy, hyo, ?_⟩
        rw [hyk, hk, keys, SortedSeq.orderedInsert_node_gt _ hlb hab]
  | N3 => exact absurd h (by simp [Br])

theorem root_spec (h : Br t n) (hout : Out t n y) :
    (∃ m, Br (root y) m) ∧ keys (root y) = keys y := by
  have htern : Tern y n → (∃ m, Br (root y) m) ∧ keys (root y) = keys y := by
    intro ht
    match y, n, ht with
    | N3 t1 a1 t2 a2 t3, m + 1, ⟨h1, h2, h3, hu1, hu3⟩ =>
      exact ⟨⟨m + 2, ⟨h1, h2, by simp [hu1]⟩,
        ⟨h3, hu3⟩, by simp [unaryNodeP]⟩, by simp [root, keys]⟩
  have hbr : Br y n → (∃ m, Br (root y) m) ∧ keys (root y) = keys y := by
    intro hy
    rcases hy.cases with ⟨rfl, -⟩ | ⟨_, _, rfl, -⟩ | ⟨_, _, _, _, rfl, -⟩ <;> exact ⟨⟨n, hy⟩, rfl⟩
  rcases h.cases with ⟨rfl, -⟩ | ⟨c, m, rfl, -⟩ | ⟨l, k, r, m, rfl, -⟩
  · obtain ⟨a, rfl⟩ := hout
    exact ⟨⟨1, trivial, trivial, by simp [unaryNodeP]⟩, rfl⟩
  · exact hbr hout
  · exact hout.elim (fun h => hbr h.2) htern

end Insert

theorem insert_spec (h : Valid t) (ho : Ordered t) :
    ∃ t', insert a t = .ok t' ∧ Valid t' ∧ keys t' = (keys t).orderedInsert (· ≤ ·) a := by
  obtain ⟨n, hn⟩ := h.br
  obtain ⟨y, hy, hout, hk⟩ := Insert.ins_spec (a := a) hn ho
  obtain ⟨⟨m, hm⟩, hroot⟩ := Insert.root_spec hn hout
  exact ⟨Insert.root y, by rw [insert, hy]; rfl, hm.valid, hroot.trans hk⟩

/-! ## Deletion -/

namespace Delete

/-- A subtree on its way up that may be a unary node with a unary child. -/
def Weak : Brothertree → Nat → Prop
  | N1 child, n + 1 => Br child n
  | t, n => Br t n

theorem weak_of_br (h : Br t n) : Weak t n := by
  match t, n, h with
  | nil, 0, h => exact h
  | N1 c, m + 1, h => exact h.1
  | N2 .., m + 1, h => exact h

theorem n2_plain (hl : ∀ c, l ≠ N1 (N1 c)) (hr : ∀ c, r ≠ N1 (N1 c))
    (h : ¬ (unaryNodeP l = true ∧ unaryNodeP r = true)) : n2 l k r = N2 l k r := by
  unfold n2
  split <;> simp_all [unaryNodeP]

theorem ne_unary_unary (h : Br t n) (c : Brothertree) : t ≠ N1 (N1 c) := by
  rintro rfl
  match n, h with
  | m + 1, ⟨_, hu⟩ => simp [unaryNodeP] at hu

/-- Two valid subtrees: only a pair of unary nodes is restructured. -/
theorem n2_of_br (hl : Br l n) (hr : Br r n) :
    Br (n2 l k r) (n + 1) ∧ keys (n2 l k r) = keys l ++ k :: keys r := by
  by_cases h : unaryNodeP l = true ∧ unaryNodeP r = true
  · match l, r, h with
    | N1 c, N1 d, _ =>
      match n, hl, hr with
      | m + 1, ⟨hc, hcu⟩, ⟨hd, hdu⟩ => exact ⟨⟨⟨hc, hd, by simp [hcu]⟩, rfl⟩, rfl⟩
  · rw [n2_plain (ne_unary_unary hl) (ne_unary_unary hr) h]
    exact ⟨⟨hl, hr, h⟩, rfl⟩

theorem Weak.cases (h : Weak t n) :
    Br t n ∨ ∃ c m, t = N1 (N1 c) ∧ n = m + 2 ∧ Br c m ∧ unaryNodeP c = false := by
  match t, n, h with
  | nil, 0, h => exact Or.inl h
  | N2 .., m + 1, h => exact Or.inl h
  | N1 u, m + 1, h =>
    by_cases hu : unaryNodeP u = true
    · match u, m, h, hu with
      | N1 c, m + 1, h, _ => exact Or.inr ⟨c, m, rfl, rfl, h.1, h.2⟩
    · exact Or.inl ⟨h, by simpa using hu⟩

theorem n2_left (hl : Weak l n) (hr : Br r n) (h : Br l n ∨ binaryNodeP r = true) :
    Br (n2 l k r) (n + 1) ∧ keys (n2 l k r) = keys l ++ k :: keys r := by
  rcases hl.cases with hl | ⟨c, m, rfl, rfl, hc, hcu⟩
  · exact n2_of_br hl hr
  have hbin : binaryNodeP r = true := by
    rcases h with h | h
    · exact absurd h.2 (by simp [unaryNodeP])
    · exact h
  match r, hr, hbin with
  | N2 rl rk rr, ⟨hrl, hrr, hb⟩, _ =>
    rcases hrl.cases with ⟨-, hm⟩ | ⟨d, m', rfl, hm, hd, hdu⟩ | ⟨l1, k1, r1, m', rfl, hm, -⟩ <;>
      rcases hrr.cases with ⟨-, hm'⟩ | ⟨e, m'', rfl, hm', he, heu⟩ | ⟨l2, k2, r2, m'', rfl, hm', -⟩
    · omega
    · omega
    · omega
    · omega
    · exact absurd hb (by simp [unaryNodeP])
    · -- case 2
      obtain rfl : m = m' := by omega
      exact ⟨⟨⟨⟨hc, hd, by simp [hcu]⟩, hrr, by simp [unaryNodeP]⟩, rfl⟩, by simp [n2, keys]⟩
    · omega
    · -- case 3
      obtain rfl : m = m'' := by omega
      obtain ⟨h1, h2, h3⟩ := hrl
      refine ⟨⟨⟨⟨hc, h1, by simp [hcu]⟩, ⟨h2, he, by simp [heu]⟩, by simp [unaryNodeP]⟩,
        rfl⟩, by simp [n2, keys]⟩
    · -- case 4
      exact ⟨⟨⟨⟨hc, hcu⟩, hrl, by simp [unaryNodeP]⟩,
        ⟨hrr, rfl⟩, by simp [unaryNodeP]⟩, by simp [n2, keys]⟩

theorem n2_right (hl : Br l n) (hr : Weak r n) (h : Br r n ∨ binaryNodeP l = true) :
    Br (n2 l k r) (n + 1) ∧ keys (n2 l k r) = keys l ++ k :: keys r := by
  rcases hr.cases with hr | ⟨c, m, rfl, rfl, hc, hcu⟩
  · exact n2_of_br hl hr
  have hbin : binaryNodeP l = true := by
    rcases h with h | h
    · exact absurd h.2 (by simp [unaryNodeP])
    · exact h
  match l, hl, hbin with
  | N2 ll lk lr, ⟨hll, hlr, hb⟩, _ =>
    rcases hll.cases with ⟨-, hm⟩ | ⟨d, m', rfl, hm, hd, hdu⟩ | ⟨l1, k1, r1, m', rfl, hm, -⟩ <;>
      rcases hlr.cases with ⟨-, hm'⟩ | ⟨e, m'', rfl, hm', he, heu⟩ | ⟨l2, k2, r2, m'', rfl, hm', -⟩
    · omega
    · omega
    · omega
    · omega
    · exact absurd hb (by simp [unaryNodeP])
    · -- case 5
      obtain rfl : m = m' := by omega
      obtain ⟨h1, h2, h3⟩ := hlr
      exact ⟨⟨⟨⟨hd, h1, by simp [hdu]⟩, ⟨h2, hc, by simp [hcu]⟩, by simp [unaryNodeP]⟩,
        rfl⟩, by simp [n2, keys]⟩
    · omega
    · -- case 6
      obtain rfl : m = m'' := by omega
      exact ⟨⟨⟨hll, ⟨he, hc, by simp [heu]⟩, by simp [unaryNodeP]⟩, rfl⟩, by simp [n2, keys]⟩
    · -- case 7
      exact ⟨⟨⟨hll, rfl⟩,
        ⟨hlr, ⟨hc, hcu⟩, by simp [unaryNodeP]⟩, by simp [unaryNodeP]⟩, by simp [n2, keys]⟩

/-- What deleting from a valid tree `x` of height `n` hands to its parent: only a unary node may
come back weak. -/
def Out (x : Brothertree) (n : Nat) (y : Brothertree) : Prop :=
  Weak y n ∧ (unaryNodeP x = false → Br y n)

theorem Out.of_br {x y : Brothertree} (h : Br y n) : Out x n y := ⟨weak_of_br h, fun _ => h⟩

theorem out_unary (hc : unaryNodeP c = false) (h : Out c n y) : Out (N1 c) (n + 1) (N1 y) :=
  ⟨h.2 hc, fun hf => by simp [unaryNodeP] at hf⟩

theorem out_left (h : Br (N2 l b r) (n + 1)) (hl : Out l n l') :
    Br (n2 l' k r) (n + 1) ∧ keys (n2 l' k r) = keys l' ++ k :: keys r := by
  obtain ⟨hbl, hbr, hb⟩ := h
  refine n2_left hl.1 hbr ?_
  by_cases hu : unaryNodeP l = true
  · exact Or.inr (hbl.binary_of_brother hbr hu hb)
  · exact Or.inl (hl.2 (by simpa using hu))

theorem out_right (h : Br (N2 l b r) (n + 1)) (hr : Out r n r') :
    Br (n2 l k r') (n + 1) ∧ keys (n2 l k r') = keys l ++ k :: keys r' := by
  obtain ⟨hbl, hbr, hb⟩ := h
  refine n2_right hbl hr.1 ?_
  by_cases hu : unaryNodeP r = true
  · exact Or.inr (hbr.binary_of_brother hbl hu fun h => hb h.symm)
  · exact Or.inl (hr.2 (by simpa using hu))

/-- Only `nil` and `N1 nil` hold no key. -/
theorem splitMin_spec (h : Br t n) :
    (∃ y, splitMin t = .ok (none, y) ∧ keys t = [] ∧ (t = nil ∨ t = N1 nil)) ∨
      ∃ a y, splitMin t = .ok (some a, y) ∧ keys t = a :: keys y ∧ Out t n y := by
  induction t generalizing n with
  | nil => exact Or.inl ⟨nil, rfl, rfl, Or.inl rfl⟩
  | L2 a => exact absurd h (by simp [Br])
  | N1 c ih =>
    match n, h with
    | m + 1, ⟨hc, hu⟩ =>
      rcases ih hc with ⟨y, hy, hk, hnil⟩ | ⟨a, y, hy, hk, hout⟩
      · left
        rcases hnil with rfl | rfl
        · exact ⟨nil, rfl, rfl, Or.inr rfl⟩
        · simp [unaryNodeP] at hu
      · exact Or.inr ⟨a, N1 y, by rw [splitMin, hy]; rfl, hk, out_unary hu hout⟩
  | N2 l b r ihl ihr =>
    match n, h with
    | m + 1, h =>
      right
      rcases ihl h.1 with ⟨y, hy, hk, hnil⟩ | ⟨a, y, hy, hk, hout⟩
      · refine ⟨b, N1 r, by rw [splitMin, hy]; rfl, by simp [keys, hk], Out.of_br ⟨h.2.1, ?_⟩⟩
        rcases hnil with rfl | rfl
        · match m, h with
          | 0, ⟨_, hr, _⟩ => match r, hr with | nil, _ => rfl
        · simpa [unaryNodeP] using h.2.2
      · obtain ⟨hbr, hkeys⟩ := out_left (k := b) h hout
        exact ⟨a, n2 y b r, by rw [splitMin, hy]; rfl, by simp [keys, hk, hkeys], Out.of_br hbr⟩
  | N3 => exact absurd h (by simp [Br])

/-- The step lemma of deletion. -/
theorem del_spec (h : Br t n) (ho : Ordered t) :
    ∃ y, del a t = .ok y ∧ Out t n y ∧ keys y = (keys t).erase a := by
  induction t generalizing n with
  | nil => exact ⟨nil, rfl, Out.of_br h, rfl⟩
  | L2 b => exact absurd h (by simp [Br])
  | N1 c ih =>
    match n, h with
    | m + 1, ⟨hc, hu⟩ =>
      obtain ⟨y, hy, hout, hk⟩ := ih hc ho
      exact ⟨N1 y, by rw [del, hy]; rfl, out_unary hu hout, hk⟩
  | N2 l b r ihl ihr =>
    obtain ⟨hol, hor, hlb, hbr, -⟩ := (SortedSeq.pairwise_node _).mp ho
    match n, h with
    | m + 1, h =>
      rcases word_trichotomy a b with hlt | rfl | hgt
      · obtain ⟨l', hl', hout, hk⟩ := ihl h.1 hol
        obtain ⟨hbr', hkeys⟩ := out_left (k := b) h hout
        refine ⟨n2 l' b r, by rw [del, if_pos hlt, hl']; rfl, Out.of_br hbr', ?_⟩
        have habsent : a ∉ b :: keys r := by
          intro hm
          rcases List.mem_cons.mp hm with rfl | hm
          · exact irrefl_of (· < ·) a hlt
          · exact BitVec.not_le.mpr hlt (hbr a hm)
        rw [hkeys, hk, keys, SortedSeq.erase_node_left habsent]
      · have hirr : ¬ a < a := irrefl_of (· < ·) a
        have herase : (keys l ++ a :: keys r).erase a = keys l ++ keys r :=
          SortedSeq.erase_node (· ≤ ·) ho
        rcases splitMin_spec h.2.1 with ⟨y, hy, hk, hnil⟩ | ⟨a', r', hy, hk, hout⟩
        · refine ⟨N1 l, by rw [del, if_neg hirr, if_neg hirr, hy]; rfl, Out.of_br ⟨h.1, ?_⟩, ?_⟩
          · rcases hnil with rfl | rfl
            · match m, h with
              | 0, ⟨hl, _, _⟩ => match l, hl with | nil, _ => rfl
            · simpa [unaryNodeP] using h.2.2
          · rw [keys, keys, herase, hk, List.append_nil]
        · obtain ⟨hbr', hkeys⟩ := out_right (k := a') h hout
          refine ⟨n2 l a' r', by rw [del, if_neg hirr, if_neg hirr, hy]; rfl, Out.of_br hbr', ?_⟩
          rw [hkeys, keys, herase, hk]
      · obtain ⟨r', hr', hout, hk⟩ := ihr h.2.1 hor
        obtain ⟨hbr', hkeys⟩ := out_right (k := b) h hout
        have hnlt : ¬ a < b := asymm_of (· < ·) hgt
        refine ⟨n2 l b r', by rw [del, if_neg hnlt, if_pos hgt, hr']; rfl, Out.of_br hbr', ?_⟩
        have habsent : a ∉ keys l := fun hm => BitVec.not_le.mpr hgt (hlb a hm)
        rw [hkeys, hk, keys, SortedSeq.erase_node_right habsent (ne_of_irrefl hgt).symm]
  | N3 => exact absurd h (by simp [Br])

theorem root_spec (h : Br t n) (hout : Out t n y) :
    (∃ m, Br (root y) m) ∧ keys (root y) = keys y := by
  match y, n, hout.1 with
  | nil, 0, hy => exact ⟨⟨0, hy⟩, rfl⟩
  | N1 c, m + 1, hc => exact ⟨⟨m, hc⟩, rfl⟩
  | N2 l k r, m + 1, hy => exact ⟨⟨m + 1, hy⟩, rfl⟩

end Delete

theorem delete_spec (h : Valid t) (ho : Ordered t) :
    ∃ t', delete a t = .ok t' ∧ Valid t' ∧ keys t' = (keys t).erase a := by
  obtain ⟨n, hn⟩ := h.br
  obtain ⟨y, hy, hout, hk⟩ := Delete.del_spec (a := a) hn ho
  obtain ⟨⟨m, hm⟩, hroot⟩ := Delete.root_spec hn hout
  exact ⟨Delete.root y, by rw [delete, hy]; rfl, hm.valid, hroot.trans hk⟩

/-- **Insertion and deletion on a valid brother tree that holds its keys in order.** -/
theorem brothertree_ops (t : Brothertree) (h : Valid t) (ho : Ordered t) (a : Word) :
    (∃ t', insert a t = .ok t' ∧ Valid t' ∧ Ordered t' ∧
      keys t' = (keys t).orderedInsert (· ≤ ·) a) ∧
      ∃ t', delete a t = .ok t' ∧ Valid t' ∧ Ordered t' ∧ keys t' = (keys t).erase a ∧
        (a ∉ keys t → keys t' = keys t) := by
  constructor
  · obtain ⟨t', ht', hv, hk⟩ := insert_spec (a := a) h ho
    refine ⟨t', ht', hv, ?_, hk⟩
    rw [Ordered, hk]
    exact ho.orderedInsert a _
  · obtain ⟨t', ht', hv, hk⟩ := delete_spec (a := a) h ho
    refine ⟨t', ht', hv, ?_, hk, fun ha => by rw [hk, List.erase_of_not_mem ha]⟩
    rw [Ordered, hk]
    exact ho.sublist List.erase_sublist

def fiveKeys : Brothertree := N2 (N1 (N2 nil 1 nil)) 3 (N2 (N2 nil 5 nil) 7 (N2 nil 9 nil))

theorem fiveKeys_valid : Valid fiveKeys where
  depth := ⟨3, by simp [fiveKeys, Depth]⟩
  unary := by simp [fiveKeys, UnaryOk, unaryNodeP]
  brother := by simp [fiveKeys, BrotherOk, unaryNodeP, binaryNodeP]
  noTemporary := by simp [fiveKeys, NoTemporary]

/-- A new key takes the place of a unary node, and a deletion moves the root. -/
theorem brothertree_ops_five :
    (∃ t', insert 2 fiveKeys = .ok t' ∧ Valid t' ∧ keys t' = [1, 2, 3, 5, 7, 9]) ∧
      delete 1 fiveKeys = .ok (N2 (N2 (N1 nil) 3 (N2 nil 5 nil)) 7 (N1 (N2 nil 9 nil))) ∧
      Valid (N2 (N2 (N1 nil) 3 (N2 nil 5 nil)) 7 (N1 (N2 nil 9 nil))) := by
  have ho : Ordered fiveKeys := by unfold Ordered; decide
  obtain ⟨t', hinsert, hv, -, hk⟩ := (brothertree_ops fiveKeys fiveKeys_valid ho 2).1
  obtain ⟨t'', hdelete, hv', -⟩ := (brothertree_ops fiveKeys fiveKeys_valid ho 1).2
  have hresult :
      delete 1 fiveKeys = .ok (N2 (N2 (N1 nil) 3 (N2 nil 5 nil)) 7 (N1 (N2 nil 9 nil))) := by decide
  cases hresult.symm.trans hdelete
  exact ⟨⟨t', hinsert, hv, hk.trans (by decide)⟩, hresult, hv'⟩

end Sbcl.Brothertree
