import Sbcl.Lib.SortedMap
import Sbcl.Tree.Redblack

/-!
# The red/black tree is a balanced finite map

* `Bal t c n` : no red node has a red child and every path has `n` black nodes, with the root colour
  `c` (`nil` counts as black); `Infra t n` : the same, except that a red root may have red children;
* `ins_spec`, `rbMerge_spec`, `del_spec` : the step lemmas. Deletion from a black tree lowers its
  black height by one and leaves it `Infra`;
* `run` : any sequence of operations from the empty tree, and what holds after it.
-/

namespace Sbcl.Rbnode

open Color
open SortedMap (CeilOr FloorOr IsCeil IsFloor Sorted lookup sorted_node)
open Std.Trichotomous (rel_or_eq_or_rel_swap)

section Balance
variable {D : Type}

/-- The in-order sequence of the data slots. -/
def entries : Rbnode D → List D
  | nil => []
  | node _ left data right => entries left ++ data :: entries right

/-- The data slot of a returned node. -/
def nodeEntry : Rbnode D → Option D
  | nil => none
  | node _ _ data _ => some data

inductive Bal : Rbnode D → Color → Nat → Prop
  | nil : Bal nil black 0
  | redNode {l r : Rbnode D} {x : D} {n : Nat} : Bal l black n → Bal r black n →
    Bal (node red l x r) red n
  | blackNode {l r : Rbnode D} {x : D} {c c' : Color} {n : Nat} :
    Bal l c n → Bal r c' n → Bal (node black l x r) black (n + 1)

inductive Infra : Rbnode D → Nat → Prop
  | bal {t : Rbnode D} {c : Color} {n : Nat} : Bal t c n → Infra t n
  | redNode {l r : Rbnode D} {x : D} {c c' : Color} {n : Nat} :
    Bal l c n → Bal r c' n → Infra (node red l x r) n

variable {l r t L R a b : Rbnode D} {x y d : D} {c c' : Color} {n : Nat}

theorem Bal.children (h : Bal (node red l x r) c n) : c = red ∧ Bal l black n ∧ Bal r black n := by
  cases h with
  | redNode hl hr => exact ⟨rfl, hl, hr⟩

theorem Bal.blackChildren (h : Bal (node black l x r) c n) :
    c = black ∧ ∃ m c₁ c₂, n = m + 1 ∧ Bal l c₁ m ∧ Bal r c₂ m := by
  cases h with
  | blackNode hl hr => exact ⟨rfl, _, _, _, rfl, hl, hr⟩

theorem Infra.children (h : Infra (node red l x r) n) : ∃ c c', Bal l c n ∧ Bal r c' n := by
  cases h with
  | bal h => exact ⟨_, _, h.children.2.1, h.children.2.2⟩
  | redNode hl hr => exact ⟨_, _, hl, hr⟩

theorem Infra.bal_of_not_red (h : Infra t n) (hr : redp t = false) : Bal t black n := by
  cases h with
  | bal h =>
    cases h with
    | nil => exact .nil
    | redNode => simp [redp] at hr
    | blackNode hl hr' => exact .blackNode hl hr'
  | redNode => simp [redp] at hr

theorem Bal.not_red (h : Bal t black n) : redp t = false := by
  cases h <;> rfl

theorem Bal.blackp (h : Bal t black (n + 1)) : blackp t = true := by
  cases h
  rfl

theorem Infra.blacken (h : Infra t n) : ∃ m, Bal (blacken t) black m := by
  cases h with
  | bal h =>
    cases h with
    | nil => exact ⟨0, .nil⟩
    | redNode hl hr => exact ⟨_, .blackNode hl hr⟩
    | blackNode hl hr => exact ⟨_, .blackNode hl hr⟩
  | redNode hl hr => exact ⟨_, .blackNode hl hr⟩

theorem Infra.blacken_red (h : Infra t n) (hr : redp t = true) :
    Bal (Rbnode.blacken t) black (n + 1) := by
  match t, hr with
  | node red l x r, _ =>
    obtain ⟨c, c', hl, hr⟩ := h.children
    exact .blackNode hl hr

@[simp] theorem entries_blacken (t : Rbnode D) : entries (blacken t) = entries t := by
  match t with
  | nil => rfl
  | node red l x r => rfl
  | node black l x r => rfl

/-! ## `balance` -/

@[simp] theorem entries_balance (c : Color) (L : Rbnode D) (d : D) (R : Rbnode D) :
    entries (balance c L d R) = entries L ++ d :: entries R := by
  unfold balance
  split
  · rfl
  · split <;> simp [redNode, blackNode, entries]

theorem balance_of_bal (hL : Bal L c n) (hR : Bal R c' n) :
    balance black L d R = node black L d R := by
  unfold balance
  simp only
  split
  · exact nomatch hL.children.2.1
  · exact nomatch hL.children.2.2
  · exact nomatch hR.children.2.1
  · exact nomatch hR.children.2.2
  · rfl

theorem Bal.exists_red (h : Bal t red n) :
    ∃ l x r, t = node red l x r ∧ Bal l black n ∧ Bal r black n := by
  cases h with
  | redNode hl hr => exact ⟨_, _, _, rfl, hl, hr⟩

theorem balance_red_left_right (ha : redp a = false) :
    balance black (node red a x (node red b y l)) d r =
      redNode (blackNode a x b) y (blackNode l d r) := by
  match a, ha with
  | nil, _ => rfl
  | node black _ _ _, _ => rfl

theorem balance_red_right_left (hL : Bal L c n) :
    balance black L d (node red (node red a x b) y r) =
      redNode (blackNode L d a) x (blackNode b y r) := by
  cases hL with
  | nil => rfl
  | redNode hl hr => cases hl <;> cases hr <;> rfl
  | blackNode => rfl

theorem balance_red_right_right (hL : Bal L c n) (ha : redp a = false) :
    balance black L d (node red a x (node red b y r)) =
      redNode (blackNode L d a) x (blackNode b y r) := by
  match a, ha with
  | nil, _ | node black _ _ _, _ =>
    cases hL with
    | nil => rfl
    | redNode hl hr => cases hl <;> cases hr <;> rfl
    | blackNode => rfl

theorem balance_left (hL : Infra L n) (hR : Bal R c n) :
    ∃ c', Bal (balance black L d R) c' (n + 1) := by
  cases hL with
  | bal hL =>
    rw [balance_of_bal hL hR]
    exact ⟨_, .blackNode hL hR⟩
  | @redNode l r x c₁ c₂ _ hl hr =>
    match c₁, c₂ with
    | red, _ =>
      obtain ⟨a, y, b, rfl, ha, hb⟩ := hl.exists_red
      exact ⟨_, .redNode (.blackNode ha hb) (.blackNode hr hR)⟩
    | black, red =>
      obtain ⟨a, y, b, rfl, ha, hb⟩ := hr.exists_red
      rw [balance_red_left_right hl.not_red]
      exact ⟨_, .redNode (.blackNode hl ha) (.blackNode hb hR)⟩
    | black, black =>
      rw [balance_of_bal (.redNode hl hr) hR]
      exact ⟨_, .blackNode (.redNode hl hr) hR⟩

theorem balance_right (hL : Bal L c n) (hR : Infra R n) :
    ∃ c', Bal (balance black L d R) c' (n + 1) := by
  cases hR with
  | bal hR =>
    rw [balance_of_bal hL hR]
    exact ⟨_, .blackNode hL hR⟩
  | @redNode l r x c₁ c₂ _ hl hr =>
    match c₁, c₂ with
    | red, _ =>
      obtain ⟨a, y, b, rfl, ha, hb⟩ := hl.exists_red
      rw [balance_red_right_left hL]
      exact ⟨_, .redNode (.blackNode hL ha) (.blackNode hb hr)⟩
    | black, red =>
      obtain ⟨a, y, b, rfl, ha, hb⟩ := hr.exists_red
      rw [balance_red_right_right hL hl.not_red]
      exact ⟨_, .redNode (.blackNode hL hl) (.blackNode ha hb)⟩
    | black, black =>
      rw [balance_of_bal hL (.redNode hl hr)]
      exact ⟨_, .blackNode hL (.redNode hl hr)⟩

/-! ## Deletion at reduced height -/

theorem redden_infra (h : Bal t black (n + 1)) :
    ∃ t', redden t = .ok t' ∧ Infra t' n ∧ entries t' = entries t := by
  cases h with
  | blackNode hl hr => exact ⟨_, rfl, .redNode hl hr, rfl⟩

theorem sub1_infra (h : Bal t black (n + 1)) :
    ∃ t', sub1 t = .ok t' ∧ Infra t' n ∧ entries t' = entries t := by
  cases h with
  | blackNode hl hr => exact ⟨_, rfl, .redNode hl hr, rfl⟩

theorem balanceLeft_spec (hL : Infra L n) (hR : Bal R c (n + 1)) :
    ∃ t, balanceLeft L d R = .ok t ∧ Infra t (n + 1) ∧ (c = black → ∃ c', Bal t c' (n + 1)) ∧
      entries t = entries L ++ d :: entries R := by
  by_cases hred : redp L = true
  · refine ⟨redNode (blacken L) d R, by simp [balanceLeft, hred],
      .redNode (hL.blacken_red hred) hR, ?_, ?_⟩
    · rintro rfl
      exact ⟨_, .redNode (hL.blacken_red hred) hR⟩
    · simp [redNode, entries]
  have hLb := hL.bal_of_not_red (by simpa using hred)
  match c with
  | black =>
    obtain ⟨R', hR', hi, he⟩ := redden_infra hR
    obtain ⟨c', hb⟩ := balance_right (d := d) hLb hi
    refine ⟨balance black L d R', ?_, .bal hb, fun _ => ⟨c', hb⟩, by simp [he]⟩
    simp [balanceLeft, hred, hR.blackp, hR', bind, Except.bind, pure, Except.pure]
  | red =>
    obtain ⟨l, z, r, rfl, hl, hr⟩ := hR.exists_red
    cases hl with
    | @blackNode a b y _ _ _ ha hb =>
      obtain ⟨r', hr', hi, he⟩ := sub1_infra hr
      obtain ⟨c', hbal⟩ := balance_right (d := z) hb hi
      refine ⟨redNode (blackNode L d a) y (balance black b z r'), ?_,
        .redNode (.blackNode hLb ha) hbal, nofun, by simp [redNode, blackNode, entries, he]⟩
      simp [balanceLeft, hred, blackp, hr', bind, Except.bind, pure, Except.pure]

theorem balanceRight_spec (hL : Bal L c (n + 1)) (hR : Infra R n) :
    ∃ t, balanceRight L d R = .ok t ∧ Infra t (n + 1) ∧ (c = black → ∃ c', Bal t c' (n + 1)) ∧
      entries t = entries L ++ d :: entries R := by
  by_cases hred : redp R = true
  · refine ⟨redNode L d (blacken R), by simp [balanceRight, hred],
      .redNode hL (hR.blacken_red hred), ?_, ?_⟩
    · rintro rfl
      exact ⟨_, .redNode hL (hR.blacken_red hred)⟩
    · simp [redNode, entries]
  have hRb := hR.bal_of_not_red (by simpa using hred)
  match c with
  | black =>
    obtain ⟨L', hL', hi, he⟩ := redden_infra hL
    obtain ⟨c', hb⟩ := balance_left (d := d) hi hRb
    refine ⟨balance black L' d R, ?_, .bal hb, fun _ => ⟨c', hb⟩, by simp [he]⟩
    simp [balanceRight, hred, hL.blackp, hL', bind, Except.bind, pure, Except.pure]
  | red =>
    obtain ⟨l, z, r, rfl, hl, hr⟩ := hL.exists_red
    cases hr with
    | @blackNode b e y _ _ _ hb he' =>
      obtain ⟨l', hl', hi, he⟩ := sub1_infra hl
      obtain ⟨c', hbal⟩ := balance_left (d := z) hi hb
      refine ⟨redNode (balance black l' z b) y (blackNode e d R), ?_,
        .redNode hbal (.blackNode he' hRb), nofun, by simp [redNode, blackNode, entries, he]⟩
      simp [balanceRight, hred, blackp, hl', bind, Except.bind, pure, Except.pure]

theorem exists_red_of_redp (h : redp t = true) : ∃ l x r, t = node red l x r := by
  match t, h with
  | node red l x r, _ => exact ⟨l, x, r, rfl⟩

theorem rbMerge_red_red {bc : Rbnode D} (h : rbMerge b l = .ok bc) (hr : redp bc = false) :
    rbMerge (node red a x b) (node red l y r) = .ok (redNode a x (redNode bc y r)) := by
  rw [rbMerge, h]
  cases bc with
  | nil => rfl
  | node c _ _ _ =>
    cases c with
    | red => cases hr
    | black => rfl

theorem rbMerge_black_black {bc : Rbnode D} (h : rbMerge b l = .ok bc) (hr : redp bc = false) :
    rbMerge (node black a x b) (node black l y r) = balanceLeft a x (blackNode bc y r) := by
  rw [rbMerge, h]
  cases bc with
  | nil => rfl
  | node c _ _ _ =>
    cases c with
    | red => cases hr
    | black => rfl

theorem rbMerge_spec (L R : Rbnode D) : ∀ {c c' : Color} {n : Nat}, Bal L c n → Bal R c' n →
    ∃ t, rbMerge L R = .ok t ∧ Infra t n ∧ (c = black → c' = black → ∃ c'', Bal t c'' n) ∧
      entries t = entries L ++ entries R := by
  induction L, R using rbMerge.induct with
  | case1 R =>
    intro c c' n hL hR
    refine ⟨R, by simp [rbMerge], .bal hR, fun _ _ => ⟨_, hR⟩, rfl⟩
  | case2 L hne =>
    intro c c' n hL hR
    refine ⟨L, ?_, .bal hL, fun _ _ => ⟨_, hL⟩, by simp [entries]⟩
    cases L with
    | nil => exact absurd rfl hne
    | node =>
      rw [rbMerge]
      exact hne
  | case3 a x b c y d ih =>
    intro c₁ c₂ n hL hR
    obtain ⟨rfl, ha, hb⟩ := hL.children
    obtain ⟨rfl, hc, hd⟩ := hR.children
    obtain ⟨bc, hbc, hi, hbal, he⟩ := ih hb hc
    obtain ⟨c', hbal⟩ := hbal rfl rfl
    by_cases hred : redp bc = true
    · obtain ⟨l, z, r, rfl⟩ := exists_red_of_redp hred
      obtain ⟨-, hl, hr⟩ := hbal.children
      refine ⟨redNode (redNode a x l) z (redNode r y d), by rw [rbMerge, hbc]; rfl,
        .redNode (.redNode ha hl) (.redNode hr hd), nofun, ?_⟩
      have := congrArg (fun s => entries a ++ x :: (s ++ y :: entries d)) he
      simpa [redNode, entries] using this
    · have hnr : redp bc = false := by simpa using hred
      refine ⟨redNode a x (redNode bc y d), rbMerge_red_red hbc hnr,
        .redNode ha (.redNode (hi.bal_of_not_red hnr) hd), nofun, ?_⟩
      simp [redNode, entries, he]
  | case4 a x b c y d ih =>
    intro c₁ c₂ n hL hR
    obtain ⟨rfl, m, c₃, c₄, rfl, ha, hb⟩ := hL.blackChildren
    obtain ⟨rfl, m', c₅, c₆, hm, hc, hd⟩ := hR.blackChildren
    obtain rfl : m = m' := by omega
    obtain ⟨bc, hbc, hi, -, he⟩ := ih hb hc
    by_cases hred : redp bc = true
    · obtain ⟨l, z, r, rfl⟩ := exists_red_of_redp hred
      obtain ⟨c₇, c₈, hl, hr⟩ := hi.children
      refine ⟨redNode (blackNode a x l) z (blackNode r y d), by rw [rbMerge, hbc]; rfl,
        .bal (.redNode (.blackNode ha hl) (.blackNode hr hd)),
        fun _ _ => ⟨_, .redNode (.blackNode ha hl) (.blackNode hr hd)⟩, ?_⟩
      have := congrArg (fun s => entries a ++ x :: (s ++ y :: entries d)) he
      simpa [redNode, blackNode, entries] using this
    · have hnr : redp bc = false := by simpa using hred
      obtain ⟨t, ht, hti, htb, hte⟩ := balanceLeft_spec (d := x) (.bal ha)
        (.blackNode (x := y) (hi.bal_of_not_red hnr) hd)
      refine ⟨t, (rbMerge_black_black hbc hnr).trans ht, hti, fun _ _ => htb rfl, ?_⟩
      simp [hte, entries, he]
  | case5 a x b c y d ih =>
    intro c₁ c₂ n hL hR
    obtain ⟨rfl, hc, hd⟩ := hR.children
    obtain ⟨rfl, -⟩ := hL.blackChildren
    obtain ⟨t, ht, -, hb, he⟩ := ih hL hc
    obtain ⟨c', hb⟩ := hb rfl rfl
    refine ⟨redNode t y d, by rw [rbMerge, ht]; rfl, .redNode hb hd, nofun, ?_⟩
    simp [redNode, entries, he]
  | case6 a x b c y d ih =>
    intro c₁ c₂ n hL hR
    obtain ⟨rfl, ha, hb'⟩ := hL.children
    obtain ⟨rfl, -⟩ := hR.blackChildren
    obtain ⟨t, ht, -, hb, he⟩ := ih hb' hR
    obtain ⟨c', hb⟩ := hb rfl rfl
    refine ⟨redNode a x t, by rw [rbMerge, ht]; rfl, .redNode ha hb, nofun, ?_⟩
    simp [redNode, entries, he]

/-- What deletion makes of a subtree `a` of colour `c` and black height `n`: a black node loses a
black level, a red node keeps its black height, `nil` stays `nil`. -/
structure Lowered (a : Rbnode D) (c : Color) (n : Nat) (a' : Rbnode D) : Prop where
  black : blackp a = true → ∃ m, n = m + 1 ∧ Infra a' m
  red : c = .red → ∃ c', Bal a' c' n
  nil : a = .nil → a' = .nil

theorem Bal.nil_of_not_blackp (h : Bal a black n) (hb : Rbnode.blackp a = false) :
    a = .nil ∧ n = 0 := by
  cases h with
  | nil => exact ⟨rfl, rfl⟩
  | blackNode => simp [Rbnode.blackp] at hb

theorem deleteLeft_spec {a' : Rbnode D} (ha : Bal a c n) (hb : Bal b c' n) (hl : Lowered a c n a') :
    ∃ t, deleteLeft a a' y b = .ok t ∧ Infra t n ∧ (c = black → c' = black → ∃ c'', Bal t c'' n) ∧
      entries t = entries a' ++ y :: entries b := by
  by_cases hblack : blackp a = true
  · obtain ⟨m, rfl, hi⟩ := hl.black hblack
    obtain ⟨t, ht, hti, htb, he⟩ := balanceLeft_spec (d := y) hi hb
    exact ⟨t, by rw [deleteLeft, if_pos hblack, ht], hti, fun _ => htb, he⟩
  have hnb : blackp a = false := by simpa using hblack
  refine ⟨redNode a' y b, by rw [deleteLeft, if_neg hblack], ?_⟩
  match c with
  | .red =>
    obtain ⟨c'', ha'⟩ := hl.red rfl
    exact ⟨.redNode ha' hb, nofun, rfl⟩
  | .black =>
    obtain ⟨rfl, rfl⟩ := ha.nil_of_not_blackp hnb
    rw [hl.nil rfl]
    refine ⟨.redNode .nil hb, ?_, rfl⟩
    rintro - rfl
    exact ⟨_, .redNode .nil hb⟩

theorem deleteRight_spec {b' : Rbnode D} (ha : Bal a c n) (hb : Bal b c' n)
    (hl : Lowered b c' n b') :
    ∃ t, deleteRight a y b b' = .ok t ∧ Infra t n ∧ (c = black → c' = black → ∃ c'', Bal t c'' n) ∧
      entries t = entries a ++ y :: entries b' := by
  by_cases hblack : blackp b = true
  · obtain ⟨m, rfl, hi⟩ := hl.black hblack
    obtain ⟨t, ht, hti, htb, he⟩ := balanceRight_spec (d := y) ha hi
    exact ⟨t, by rw [deleteRight, if_pos hblack, ht], hti, fun h _ => htb h, he⟩
  have hnb : blackp b = false := by simpa using hblack
  refine ⟨redNode a y b', by rw [deleteRight, if_neg hblack], ?_⟩
  match c' with
  | .red =>
    obtain ⟨c'', hb'⟩ := hl.red rfl
    exact ⟨.redNode ha hb', nofun, rfl⟩
  | .black =>
    obtain ⟨rfl, rfl⟩ := hb.nil_of_not_blackp hnb
    rw [hl.nil rfl]
    refine ⟨.redNode ha .nil, ?_, rfl⟩
    rintro rfl -
    exact ⟨_, .redNode ha .nil⟩

theorem Bal.lowered {a b : Rbnode D} (h : Bal (node c a x b) c' n) :
    ∃ c₁ c₂ m, Bal a c₁ m ∧ Bal b c₂ m ∧ ∀ t, Infra t m →
      (c₁ = .black → c₂ = .black → ∃ c'', Bal t c'' m) → Lowered (node c a x b) c' n t := by
  match c with
  | .red =>
    obtain ⟨rfl, ha, hb⟩ := h.children
    exact ⟨_, _, _, ha, hb, fun t _ ht => ⟨fun hf => by simp [Rbnode.blackp] at hf,
      fun _ => ht rfl rfl, nofun⟩⟩
  | .black =>
    obtain ⟨rfl, m, c₁, c₂, rfl, ha, hb⟩ := h.blackChildren
    exact ⟨_, _, _, ha, hb, fun t ht _ => ⟨fun _ => ⟨m, rfl, ht⟩, nofun, nofun⟩⟩

end Balance

section Class
variable {D K : Type} {lessp : K → K → Bool} {key : D → K} {t a b : Rbnode D} {c : Color}
    {n : Nat} {k : K} {d : D}

/-- `lessp` as a relation. -/
abbrev Less (lessp : K → K → Bool) (a b : K) : Prop := lessp a b = true

variable [IsStrictTotalOrder K (Less lessp)]

/-- Search order by `lessp`. -/
def Ordered (lessp : K → K → Bool) (key : D → K) (t : Rbnode D) : Prop :=
  Sorted (Less lessp) key t.entries

/-- The step lemma of deletion. -/
theorem del_spec (ho : Ordered lessp key t) (hb : Bal t c n) :
    ∃ t', del lessp key k t = .ok t' ∧ Lowered t c n t' ∧
      t'.entries = SortedMap.erase (Less lessp) key k t.entries := by
  induction t generalizing c n with
  | nil =>
    cases hb
    exact ⟨nil, rfl, ⟨nofun, nofun, fun _ => rfl⟩, rfl⟩
  | node color a y b iha ihb =>
    obtain ⟨hoa, hob, -⟩ := (sorted_node _ _).mp ho
    obtain ⟨c₁, c₂, m, ha, hb', hlow⟩ := hb.lowered
    rcases rel_or_eq_or_rel_swap (r := Less lessp) (a := k) (b := key y) with hlt | heq | hgt
    · obtain ⟨a', hdel, hl, he⟩ := iha hoa ha
      obtain ⟨t, ht, hi, hbal, het⟩ := deleteLeft_spec (y := y) ha hb' hl
      refine ⟨t, by rw [del, if_pos hlt, hdel]; exact ht, hlow t hi hbal, ?_⟩
      rw [het, he, entries, SortedMap.erase_node_lt ho hlt]
    · obtain ⟨t, ht, hi, hbal, het⟩ := rbMerge_spec a b ha hb'
      have hirr : ¬ lessp (key y) (key y) = true := irrefl_of (Less lessp) (key y)
      refine ⟨t, by rw [del, heq, if_neg hirr, if_neg hirr, ht], hlow t hi hbal, ?_⟩
      rw [het, entries, SortedMap.erase_node_eq ho heq]
    obtain ⟨b', hdel, hl, he⟩ := ihb hob hb'
    obtain ⟨t, ht, hi, hbal, het⟩ := deleteRight_spec (y := y) ha hb' hl
    have hnlt : ¬ lessp k (key y) = true := asymm_of (Less lessp) hgt
    refine ⟨t, by rw [del, if_neg hnlt, if_pos hgt, hdel]; exact ht, hlow t hi hbal, ?_⟩
    rw [het, he, entries, SortedMap.erase_node_gt ho hgt]

theorem delete_spec (ho : Ordered lessp key t) (hb : Bal t black n) :
    ∃ t' m, delete lessp key k t = .ok t' ∧ Bal t' black m ∧
      t'.entries = SortedMap.erase (Less lessp) key k t.entries := by
  obtain ⟨t', ht', hl, he⟩ := del_spec (k := k) ho hb
  have hblack : ∃ m, Bal (blacken t') black m := by
    by_cases hbl : blackp t = true
    · obtain ⟨m, -, hi⟩ := hl.black hbl
      exact hi.blacken
    · obtain ⟨rfl, -⟩ := hb.nil_of_not_blackp (by simpa using hbl)
      rw [hl.nil rfl]
      exact ⟨0, .nil⟩
  obtain ⟨m, hm⟩ := hblack
  exact ⟨blacken t', m, by rw [delete, ht']; rfl, hm, by rw [entries_blacken, he]⟩

/-! ## Insertion -/

omit [IsStrictTotalOrder K (Less lessp)] in
theorem ins_bal (hb : Bal t c n) : Infra (ins lessp key d t) n ∧
    (c = black → ∃ c', Bal (ins lessp key d t) c' n) := by
  induction t generalizing c n with
  | nil =>
    cases hb
    exact ⟨.bal (.redNode .nil .nil), fun _ => ⟨_, .redNode .nil .nil⟩⟩
  | node color a y b iha ihb =>
    rw [ins]
    match color with
    | .red =>
      obtain ⟨rfl, ha, hb'⟩ := hb.children
      refine ⟨?_, nofun⟩
      split_ifs
      · obtain ⟨c', ha'⟩ := (iha ha).2 rfl
        exact .redNode ha' hb'
      · obtain ⟨c', hb''⟩ := (ihb hb').2 rfl
        exact .redNode ha hb''
      · exact .redNode ha hb'
    | .black =>
      obtain ⟨rfl, m, c₁, c₂, rfl, ha, hb'⟩ := hb.blackChildren
      have hbal : ∃ c', Bal (if lessp (key d) (key y) then balance black (ins lessp key d a) y b
          else if lessp (key y) (key d) then balance black a y (ins lessp key d b)
          else node black a d b) c' (m + 1) := by
        split_ifs
        · exact balance_left (iha ha).1 hb'
        · exact balance_right ha (ihb hb').1
        · exact ⟨_, .blackNode ha hb'⟩
      exact ⟨.bal hbal.choose_spec, fun _ => hbal⟩

theorem ins_entries (ho : Ordered lessp key t) :
    (ins lessp key d t).entries = SortedMap.insert (Less lessp) key d t.entries := by
  induction t with
  | nil => rfl
  | node color a y b iha ihb =>
    obtain ⟨hoa, hob, -⟩ := (sorted_node _ _).mp ho
    rcases rel_or_eq_or_rel_swap (r := Less lessp) (a := key d) (b := key y)
      with hlt | heq | hgt
    · rw [ins, if_pos hlt, entries_balance, iha hoa, entries, SortedMap.insert_node_lt ho hlt]
    · have hirr : ¬ lessp (key y) (key y) = true := irrefl_of (Less lessp) (key y)
      rw [ins, heq, if_neg hirr, if_neg hirr, entries, entries, SortedMap.insert_node_eq ho heq]
    · have hnlt : ¬ lessp (key d) (key y) = true := asymm_of (Less lessp) hgt
      rw [ins, if_neg hnlt, if_pos hgt, entries_balance, ihb hob, entries,
        SortedMap.insert_node_gt ho hgt]

/-- The step lemma of insertion. -/
theorem insert_spec (ho : Ordered lessp key t) (hb : Bal t black n) :
    (∃ m, Bal (insert lessp key t d) black m) ∧
      (insert lessp key t d).entries = SortedMap.insert (Less lessp) key d t.entries :=
  ⟨(ins_bal hb).1.blacken, by rw [insert, entries_blacken, ins_entries ho]⟩

theorem findEq_spec (ho : Ordered lessp key t) :
    (findEq lessp key k t).nodeEntry = lookup (Less lessp) key k t.entries := by
  induction t with
  | nil => rfl
  | node color a y b iha ihb =>
    obtain ⟨hoa, hob, -⟩ := (sorted_node _ _).mp ho
    rcases rel_or_eq_or_rel_swap (r := Less lessp) (a := k) (b := key y) with hlt | heq | hgt
    · rw [findEq, if_pos hlt, iha hoa, entries, SortedMap.lookup_node_lt ho hlt]
    · have hirr : ¬ lessp (key y) (key y) = true := irrefl_of (Less lessp) (key y)
      rw [entries, SortedMap.lookup_node_eq ho heq, findEq, heq, if_neg hirr,
        if_neg hirr, nodeEntry]
    · have hnlt : ¬ lessp k (key y) = true := asymm_of (Less lessp) hgt
      rw [findEq, if_neg hnlt, if_pos hgt, ihb hob, entries, SortedMap.lookup_node_gt ho hgt]

theorem findLEIn_spec (ho : Ordered lessp key t) (best : Rbnode D) :
    FloorOr (Less lessp) key k t.entries best.nodeEntry
      (findLEIn lessp key k t best).nodeEntry := by
  induction t generalizing best with
  | nil => exact FloorOr.nil
  | node color a y b iha ihb =>
    obtain ⟨hoa, hob, hax, hxb, -⟩ := (sorted_node _ _).mp ho
    rcases rel_or_eq_or_rel_swap (r := Less lessp) (a := k) (b := key y) with hlt | heq | hgt
    · rw [findLEIn, if_pos hlt]
      exact FloorOr.node_lt hxb hlt (iha hoa best)
    · have hirr : ¬ lessp (key y) (key y) = true := irrefl_of (Less lessp) (key y)
      rw [findLEIn, heq, if_neg hirr, if_neg hirr]
      exact FloorOr.node_eq hax hxb rfl
    · rw [findLEIn, if_neg (asymm_of (Less lessp) hgt), if_pos hgt]
      exact FloorOr.node_gt hax hxb hgt (ihb hob _)

theorem findGEIn_spec (ho : Ordered lessp key t) (best : Rbnode D) :
    CeilOr (Less lessp) key k t.entries best.nodeEntry (findGEIn lessp key k t best).nodeEntry := by
  induction t generalizing best with
  | nil => exact CeilOr.nil
  | node color a y b iha ihb =>
    obtain ⟨hoa, hob, hax, hxb, -⟩ := (sorted_node _ _).mp ho
    rcases rel_or_eq_or_rel_swap (r := Less lessp) (a := k) (b := key y) with hlt | heq | hgt
    · rw [findGEIn, if_pos hlt]
      exact CeilOr.node_lt hax hxb hlt (iha hoa _)
    · have hirr : ¬ lessp (key y) (key y) = true := irrefl_of (Less lessp) (key y)
      rw [findGEIn, heq, if_neg hirr, if_neg hirr]
      exact CeilOr.node_eq hax hxb rfl
    · rw [findGEIn, if_neg (asymm_of (Less lessp) hgt), if_pos hgt]
      exact CeilOr.node_gt hax hgt (ihb hob best)

/-! ## Runs -/

inductive Op (D K : Type) where
  | insert (data : D)
  | delete (k : K)

def apply (lessp : K → K → Bool) (key : D → K) (t : Rbnode D) : Op D K → Except Err (Rbnode D)
  | .insert data => .ok (insert lessp key t data)
  | .delete k => delete lessp key k t

/-- One operation on the variable that holds the tree: an error leaves it as it was. -/
def step (lessp : K → K → Bool) (key : D → K) (t : Rbnode D) (op : Op D K) : Rbnode D :=
  (apply lessp key t op).toOption.getD t

/-- The tree after `ops`, from the empty one. -/
def run (lessp : K → K → Bool) (key : D → K) (ops : List (Op D K)) : Rbnode D :=
  ops.foldl (step lessp key) nil

/-- The finite map that `op` makes of `m`. -/
def stepMap [DecidableEq K] (key : D → K) (m : K → Option D) : Op D K → K → Option D
  | .insert data => Function.update m (key data) (some data)
  | .delete k => Function.update m k none

/-- The finite map after `ops`. -/
def runMap [DecidableEq K] (key : D → K) (ops : List (Op D K)) : K → Option D :=
  ops.foldl (stepMap key) fun _ => none

/-- No red node has a red child. -/
def NoRedRed : Rbnode D → Prop
  | nil => True
  | node c l _ r => (c = red → redp l = false ∧ redp r = false) ∧ NoRedRed l ∧ NoRedRed r

/-- Every path from the root to a leaf has `n` black nodes. -/
def BlackHeight : Rbnode D → Nat → Prop
  | nil, n => n = 0
  | node red l _ r, n => BlackHeight l n ∧ BlackHeight r n
  | node black _ _ _, 0 => False
  | node black l _ r, n + 1 => BlackHeight l n ∧ BlackHeight r n

omit [IsStrictTotalOrder K (Less lessp)] in
theorem Bal.noRedRed (h : Bal t c n) : NoRedRed t := by
  induction h with
  | nil => trivial
  | redNode hl hr ihl ihr => exact ⟨fun _ => ⟨hl.not_red, hr.not_red⟩, ihl, ihr⟩
  | blackNode hl hr ihl ihr => exact ⟨nofun, ihl, ihr⟩

omit [IsStrictTotalOrder K (Less lessp)] in
theorem Bal.blackHeight (h : Bal t c n) : BlackHeight t n := by
  induction h with
  | nil => rfl
  | redNode hl hr ihl ihr => exact ⟨ihl, ihr⟩
  | blackNode hl hr ihl ihr => exact ⟨ihl, ihr⟩

/-- The tree `t` is a red/black tree that holds the finite map `m`, and its operations act on it as
on `m`. -/
structure Holds (lessp : K → K → Bool) (key : D → K) (t : Rbnode D) (m : K → Option D) : Prop where
  ordered : Ordered lessp key t
  noRedRed : NoRedRed t
  blackHeight : ∃ n, BlackHeight t n
  blackRoot : redp t = false
  contents : ∀ k, lookup (Less lessp) key k t.entries = m k
  /-- No `aver` of the deletion code fails. -/
  deletes : ∀ k, ∃ t', delete lessp key k t = .ok t'
  absent : ∀ k t', m k = none → delete lessp key k t = .ok t' → t'.entries = t.entries
  findEq : ∀ k, (findEq lessp key k t).nodeEntry = m k
  findLE : ∀ k, IsFloor (Less lessp) key k t.entries (findLE lessp key k t).nodeEntry
  findGE : ∀ k, IsCeil (Less lessp) key k t.entries (findGE lessp key k t).nodeEntry

variable {m : K → Option D}

theorem holds_of_bal (ho : Ordered lessp key t) (hb : Bal t black n)
    (hm : ∀ k, lookup (Less lessp) key k t.entries = m k) : Holds lessp key t m where
  ordered := ho
  noRedRed := hb.noRedRed
  blackHeight := ⟨n, hb.blackHeight⟩
  blackRoot := hb.not_red
  contents := hm
  deletes k := by
    obtain ⟨t', m, ht', -⟩ := delete_spec (k := k) ho hb
    exact ⟨t', ht'⟩
  absent k t' hk ht' := by
    obtain ⟨t'', m', ht'', -, he⟩ := delete_spec (k := k) ho hb
    obtain rfl : t'' = t' := by simpa [ht''] using ht'
    rw [he]
    exact SortedMap.erase_of_forall_ne ho (SortedMap.lookup_eq_none.mp ((hm k).trans hk))
  findEq k := (findEq_spec ho).trans (hm k)
  findLE k := (findLEIn_spec ho nil).isFloor
  findGE k := (findGEIn_spec ho nil).isCeil

variable [DecidableEq K]

theorem step_spec (ho : Ordered lessp key t) (hb : Bal t black n)
    (hm : ∀ k, lookup (Less lessp) key k t.entries = m k) (op : Op D K) :
    Ordered lessp key (step lessp key t op) ∧ (∃ n', Bal (step lessp key t op) black n') ∧
      ∀ k, lookup (Less lessp) key k (step lessp key t op).entries = stepMap key m op k := by
  cases op with
  | insert data =>
    obtain ⟨hbal, he⟩ := insert_spec (d := data) ho hb
    have hstep : step lessp key t (.insert data) = insert lessp key t data := rfl
    rw [hstep, Ordered, he]
    refine ⟨ho.insert data, hbal, fun k => ?_⟩
    rw [SortedMap.lookup_insert ho, hm, stepMap, Function.update_apply]
  | delete k' =>
    obtain ⟨t', n', ht', hbal, he⟩ := delete_spec (k := k') ho hb
    have hstep : step lessp key t (.delete k') = t' := by simp [step, apply, ht', Except.toOption]
    rw [hstep, Ordered, he]
    refine ⟨ho.erase k', ⟨n', hbal⟩, fun k => ?_⟩
    rw [SortedMap.lookup_erase ho, hm, stepMap, Function.update_apply]

theorem holds_foldl (ops : List (Op D K)) : ∀ {t : Rbnode D} {m : K → Option D} {n : Nat},
    Ordered lessp key t → Bal t black n → (∀ k, lookup (Less lessp) key k t.entries = m k) →
    Holds lessp key (ops.foldl (step lessp key) t) (ops.foldl (stepMap key) m) := by
  induction ops with
  | nil =>
    intro t m n ho hb hm
    exact holds_of_bal ho hb hm
  | cons op ops ih =>
    intro t m n ho hb hm
    obtain ⟨ho', ⟨n', hb'⟩, hm'⟩ := step_spec ho hb hm op
    exact ih ho' hb' hm'

theorem holds_run (ops : List (Op D K)) : Holds lessp key (run lessp key ops) (runMap key ops) :=
  holds_foldl ops List.Pairwise.nil .nil fun _ => rfl

end Class

instance : IsStrictTotalOrder Fixnum (Less addrLt) where
  irrefl a h := by simp [Less, addrLt] at h
  trans a b c hab hbc := by
    simp only [Less, addrLt, decide_eq_true_eq] at *
    exact BitVec.lt_trans hab hbc
  trichotomous a b hab hba := by
    simp only [Less, addrLt, decide_eq_true_eq] at hab hba
    exact Fixnum.getLispObjAddress_injective (Std.Trichotomous.trichotomous _ _ hab hba)

instance : IsStrictTotalOrder Fixnum (Less fixnumLt) where
  irrefl a h := by simp [Less, fixnumLt] at h
  trans a b c hab hbc := by
    simp only [Less, fixnumLt, decide_eq_true_eq] at *
    exact Int.lt_trans hab hbc
  trichotomous a b hab hba := by
    simp only [Less, fixnumLt, decide_eq_true_eq] at hab hba
    exact Fixnum.ext (Int.le_antisymm (Int.not_lt.mp hba) (Int.not_lt.mp hab))

/-- **Word trees and map trees after any sequence of insertions and deletions.** -/
theorem redblack_run (V : Type) :
    (∀ ops : List (Op Fixnum Fixnum), Holds addrLt id (run addrLt id ops) (runMap id ops)) ∧
      ∀ ops : List (Op (Fixnum × V) Fixnum), Holds fixnumLt Prod.fst (run fixnumLt Prod.fst ops)
        (runMap Prod.fst ops) :=
  ⟨fun ops => holds_run ops, fun ops => holds_run ops⟩

end Sbcl.Rbnode
