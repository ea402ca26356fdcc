import Posonly.Proofs.Text.Separator

/-!
# The shape of syntax trees

What may be assumed of a tree that a parser gives for a source. A tree is *well formed* if it stays
inside the source and at every node the children are in order, disjoint and inside the node. It is
*tight* if the nodes that a conversion looks at start and end with text of their own, and not with
blanks or separators around it.

Both are conditions on single nodes, asked of every node of the tree in document order, so they can
be checked on a given tree.
-/

open List

namespace Posonly.Tree

/-- Trees that follow one another between two offsets. -/
def InOrder (start stop : Nat) : List Tree → Prop
  | [] => start ≤ stop
  | t :: ts => start ≤ t.start ∧ t.start ≤ t.stop ∧ InOrder t.stop stop ts

/-- The children of a node are in order, disjoint and inside it. -/
def Orderly (t : Tree) : Prop := t.start ≤ t.stop ∧ InOrder t.start t.stop t.children

/-- A tree of a source with so many units. -/
def WellFormed (t : Tree) (length : Nat) : Prop := t.stop ≤ length ∧ ∀ n ∈ t.preorder, n.Orderly

/-- The text of a node starts with a solid unit. -/
def StartsSolid (source : Text) (t : Tree) : Prop := t.start < t.stop ∧ source.SolidAt t.start

/-- A node has text of its own where a conversion relies on it. -/
structure TightNode (source : Text) (t : Tree) : Prop where
  /-- Names and comments have nothing below them. -/
  leaf : t.kind = .variableName ∨ t.kind = .comment → t.children = []
  /-- Names, functions and lambdas start with a solid unit. -/
  opens : t.kind = .variableName ∨ t.kind = .functionDefinition ∨ t.kind = .lambdaExpression →
    StartsSolid source t
  /-- Lambdas end with one. -/
  closes : t.kind = .lambdaExpression → t.start < t.stop ∧ source.SolidAt (t.stop - 1)
  /-- The parameters of a function end with their closing bracket. -/
  bracket : t.kind = .functionDefinition → ∀ p ∈ t.children, p.kind = .paramList →
    p.start < p.stop ∧ source[p.stop - 1]? = some 0x29

/-- Every node of a tree is tight. -/
def Tight (source : Text) (t : Tree) : Prop := ∀ n ∈ t.preorder, n.TightNode source

/-! ## Checking -/

instance decidableInOrder :
    (start stop : Nat) → (ts : List Tree) → Decidable (InOrder start stop ts)
  | start, stop, [] => inferInstanceAs (Decidable (start ≤ stop))
  | start, stop, t :: ts =>
    have := decidableInOrder t.stop stop ts
    inferInstanceAs (Decidable (start ≤ t.start ∧ t.start ≤ t.stop ∧ InOrder t.stop stop ts))

instance (t : Tree) : Decidable t.Orderly :=
  inferInstanceAs (Decidable (t.start ≤ t.stop ∧ InOrder t.start t.stop t.children))

instance (t : Tree) (length : Nat) : Decidable (t.WellFormed length) :=
  inferInstanceAs (Decidable (t.stop ≤ length ∧ ∀ n ∈ t.preorder, n.Orderly))

instance (source : Text) (t : Tree) : Decidable (t.StartsSolid source) :=
  inferInstanceAs (Decidable (t.start < t.stop ∧ source.SolidAt t.start))

instance (source : Text) (t : Tree) : Decidable (t.TightNode source) :=
  decidable_of_iff
    (((t.kind = .variableName ∨ t.kind = .comment) → t.children.isEmpty = true) ∧
      ((t.kind = .variableName ∨ t.kind = .functionDefinition ∨ t.kind = .lambdaExpression) →
        StartsSolid source t) ∧
      (t.kind = .lambdaExpression → t.start < t.stop ∧ source.SolidAt (t.stop - 1)) ∧
      (t.kind = .functionDefinition → ∀ p ∈ t.children, p.kind = .paramList →
        p.start < p.stop ∧ source[p.stop - 1]? = some 0x29))
    ⟨fun ⟨h1, h2, h3, h4⟩ => ⟨fun h => List.isEmpty_iff.mp (h1 h), h2, h3, h4⟩,
      fun ⟨h1, h2, h3, h4⟩ => ⟨fun h => List.isEmpty_iff.mpr (h1 h), h2, h3, h4⟩⟩

instance (source : Text) (t : Tree) : Decidable (t.Tight source) :=
  inferInstanceAs (Decidable (∀ n ∈ t.preorder, n.TightNode source))

/-! ## Writing trees down -/

def leaf (kind : Kind) (start stop : Nat) : Tree := .node kind ⟨start, stop⟩ []

/-- A keyword or a sign, whose kind is named like it. -/
def sign (name : String) (start : Nat) : Tree := leaf (.other name) start (start + name.length)

/-- A lambda with a single parameter, a name of one letter ahead of a marker. -/
def markedLambda (start : Nat) (result : Tree) : Tree :=
  .node .lambdaExpression ⟨start, result.stop⟩ [.sign "lambda" start,
    .node .paramList ⟨start + 7, start + 11⟩ [.leaf .variableName (start + 7) (start + 8),
      .sign "," (start + 8), .leaf .error (start + 10) (start + 11)],
    .sign ":" (start + 11), result]

/-- The body of a function that does nothing, on the line of its head. -/
def passBody (start : Nat) : Tree :=
  .node .body ⟨start, start + 7⟩ [.sign ":" start,
    .node (.other "PassStatement") ⟨start + 2, start + 6⟩ [.sign "pass" (start + 2)]]

/-! ## Children -/

variable {start stop : Nat} {ts : List Tree} {s t : Tree}

section

variable (h : InOrder start stop ts)

include h

theorem InOrder.le : start ≤ stop := by
  induction ts generalizing start with
  | nil => exact h
  | cons t ts ih =>
    obtain ⟨h1, h2, h3⟩ := h
    have := ih h3
    omega

theorem InOrder.mem_range (ht : t ∈ ts) : start ≤ t.start ∧ t.start ≤ t.stop ∧ t.stop ≤ stop := by
  induction ts generalizing start with
  | nil => cases ht
  | cons s ts ih =>
    obtain ⟨h1, h2, h3⟩ := h
    rcases mem_cons.mp ht with rfl | ht
    · exact ⟨h1, h2, h3.le⟩
    · have := ih h3 ht
      omega

theorem InOrder.mem_le : ∀ t ∈ ts, t.start ≤ t.stop ∧ t.stop ≤ stop :=
  fun _ ht => (h.mem_range ht).2

theorem InOrder.pairwise : ts.Pairwise fun s t => s.stop ≤ t.start := by
  induction ts generalizing start with
  | nil => exact List.Pairwise.nil
  | cons s ts ih =>
    obtain ⟨_, _, h3⟩ := h
    exact List.Pairwise.cons (fun t ht => (h3.mem_range ht).1) (ih h3)

/-- Two different trees of a row do not overlap. -/
theorem InOrder.apart (hs : s ∈ ts) (ht : t ∈ ts) (hne : s ≠ t) :
    s.stop ≤ t.start ∨ t.stop ≤ s.start :=
  List.Pairwise.forall_of_forall_of_flip
    (R := fun s t => s ≠ t → s.stop ≤ t.start ∨ t.stop ≤ s.start)
    (fun _ _ hne => absurd rfl hne) (h.pairwise.imp fun h _ => .inl h)
    (h.pairwise.imp fun h _ => .inr h) hs ht hne

end

theorem InOrder.weaken {start' : Nat} (hle : start' ≤ start) (h : InOrder start stop ts) :
    InOrder start' stop ts := by
  cases ts with
  | nil => exact Nat.le_trans hle h
  | cons t ts => exact ⟨Nat.le_trans hle h.1, h.2⟩

variable {us : List Tree} {n m : Tree} {P : Tree → Prop}

theorem InOrder.sublist (h : InOrder start stop ts) (hsub : us.Sublist ts) :
    InOrder start stop us := by
  induction hsub generalizing start with
  | slnil => exact h
  | cons s _ ih =>
    obtain ⟨h1, h2, h3⟩ := h
    exact (ih h3).weaken (Nat.le_trans h1 h2)
  | cons_cons s _ ih =>
    obtain ⟨h1, h2, h3⟩ := h
    exact ⟨h1, h2, ih h3⟩

theorem InOrder.append {a b c : Nat} (h : InOrder a b ts) (h' : InOrder b c us) :
    InOrder a c (ts ++ us) := by
  induction ts generalizing a with
  | nil => exact h'.weaken h
  | cons t ts ih =>
    obtain ⟨h1, h2, h3⟩ := h
    exact ⟨h1, h2, ih h3⟩

/-- What stands ahead of the last tree ends where that one starts. -/
theorem InOrder.of_concat (h : InOrder start stop (ts ++ [t])) :
    InOrder start t.start ts ∧ t.stop ≤ stop := by
  induction ts generalizing start with
  | nil =>
    obtain ⟨h1, _, h3⟩ := h
    exact ⟨h1, h3⟩
  | cons s ts ih =>
    obtain ⟨h1, h2, h3⟩ := h
    exact ⟨⟨h1, h2, (ih h3).1⟩, (ih h3).2⟩

/-! ## Walking down -/

theorem mem_preorderAll : n ∈ preorderAll ts ↔ ∃ t ∈ ts, n ∈ t.preorder := by
  induction ts with
  | nil => simp [preorderAll]
  | cons t ts ih => simp [preorderAll, ih]

theorem preorder_eq (t : Tree) : t.preorder = t :: preorderAll t.children := by
  cases t with
  | node kind range children => rw [preorder]; rfl

theorem self_mem_preorder (t : Tree) : t ∈ t.preorder := by
  rw [preorder_eq]
  exact mem_cons_self ..

theorem mem_preorder_of_child {c : Tree} (hc : c ∈ t.children) (hn : n ∈ c.preorder) :
    n ∈ t.preorder := by
  rw [preorder_eq]
  exact mem_cons_of_mem _ (mem_preorderAll.mpr ⟨c, hc, hn⟩)

theorem forall_preorder_child (h : ∀ n ∈ t.preorder, P n) {c : Tree} (hc : c ∈ t.children) :
    ∀ n ∈ c.preorder, P n :=
  fun n hn => h n (mem_preorder_of_child hc hn)

/-- What a node has if its children have it, every tree has. -/
theorem byChildren (step : ∀ t : Tree, (∀ c ∈ t.children, P c) → P t) : ∀ t, P t
  | node kind range children => step (node kind range children) fun c hc =>
    have : sizeOf c < sizeOf children := sizeOf_lt_of_mem hc
    byChildren step c
termination_by t => t
decreasing_by
  simp only [node.sizeOf_spec]
  omega

theorem mem_preorder_trans (hn : n ∈ t.preorder) (hm : m ∈ n.preorder) : m ∈ t.preorder := by
  induction t using byChildren with
  | _ t ih =>
    rw [preorder_eq] at hn
    rcases mem_cons.mp hn with rfl | hn
    · exact hm
    · obtain ⟨c, hc, hnc⟩ := mem_preorderAll.mp hn
      exact mem_preorder_of_child hc (ih c hc hnc)

/-- **Every node below is inside** the range of the tree. -/
theorem preorder_range (h : ∀ n ∈ t.preorder, n.Orderly) (hm : m ∈ t.preorder) :
    t.start ≤ m.start ∧ m.start ≤ m.stop ∧ m.stop ≤ t.stop := by
  induction t using byChildren with
  | _ t ih =>
    have hself := h t (self_mem_preorder t)
    rw [preorder_eq] at hm
    rcases mem_cons.mp hm with rfl | hm
    · exact ⟨Nat.le_refl _, hself.1, Nat.le_refl _⟩
    · obtain ⟨c, hc, hmc⟩ := mem_preorderAll.mp hm
      have hrange := hself.2.mem_range hc
      have hbelow := ih c hc (forall_preorder_child h hc) hmc
      omega

/-! ## Children first -/

mutual

/-- The nodes of a tree, each behind those below it. -/
def postorder : Tree → List Tree
  | .node kind range children => postorderAll children ++ [.node kind range children]

/-- The nodes of trees one after the other, each behind those below it. -/
def postorderAll : List Tree → List Tree
  | [] => []
  | t :: ts => postorder t ++ postorderAll ts

end

theorem postorder_eq (t : Tree) : t.postorder = postorderAll t.children ++ [t] := by
  cases t with
  | node kind range children => rw [postorder]; rfl

theorem mem_postorderAll : n ∈ postorderAll ts ↔ ∃ t ∈ ts, n ∈ t.postorder := by
  induction ts with
  | nil => simp [postorderAll]
  | cons t ts ih => simp [postorderAll, ih]

theorem postorderAll_perm (h : ∀ t ∈ ts, t.postorder.Perm t.preorder) :
    (postorderAll ts).Perm (preorderAll ts) := by
  induction ts with
  | nil => rw [postorderAll, preorderAll]
  | cons t ts ih =>
    rw [postorderAll, preorderAll]
    exact (h t (by simp)).append (ih fun s hs => h s (by simp [hs]))

/-- Both orders have the same nodes. -/
theorem postorder_perm (t : Tree) : t.postorder.Perm t.preorder := by
  induction t using byChildren with
  | _ t ih =>
    rw [postorder_eq, preorder_eq]
    exact (perm_append_singleton ..).trans ((postorderAll_perm ih).cons t)

theorem mem_postorder : n ∈ t.postorder ↔ n ∈ t.preorder := t.postorder_perm.mem_iff

/-- One node stands wholly ahead of another, or somewhere below it. -/
def Ahead (m n : Tree) : Prop := m.stop ≤ n.start ∨ ∃ c ∈ n.children, m ∈ c.preorder

theorem postorderAll_pairwise (hord : InOrder start stop ts)
    (h : ∀ t ∈ ts, ∀ n ∈ t.preorder, n.Orderly) (hts : ∀ t ∈ ts, t.postorder.Pairwise Ahead) :
    (postorderAll ts).Pairwise Ahead := by
  induction ts generalizing start with
  | nil => exact List.Pairwise.nil
  | cons t ts ih =>
    obtain ⟨_, _, hrest⟩ := hord
    rw [postorderAll, pairwise_append]
    refine ⟨hts t (by simp), ih hrest (fun s hs => h s (by simp [hs]))
      (fun s hs => hts s (by simp [hs])), ?_⟩
    intro m hm n hn
    obtain ⟨s, hs, hns⟩ := mem_postorderAll.mp hn
    have hmt := preorder_range (h t (by simp)) (mem_postorder.mp hm)
    have hns := preorder_range (h s (by simp [hs])) (mem_postorder.mp hns)
    have := (hrest.mem_range hs).1
    exact .inl (by omega)

/-- **Children first**: of two nodes in this order, the second is behind the first or above it. -/
theorem postorder_pairwise (h : ∀ n ∈ t.preorder, n.Orderly) : t.postorder.Pairwise Ahead := by
  induction t using byChildren with
  | _ t ih =>
    have hself := h t (self_mem_preorder t)
    rw [postorder_eq, pairwise_append]
    refine ⟨?_, pairwise_singleton .., ?_⟩
    · exact postorderAll_pairwise hself.2 (fun c hc => forall_preorder_child h hc)
        fun c hc => ih c hc (forall_preorder_child h hc)
    · intro m hm n hn
      obtain ⟨c, hc, hmc⟩ := mem_postorderAll.mp hm
      rw [mem_singleton.mp hn]
      exact .inr ⟨c, hc, mem_postorder.mp hmc⟩

end Posonly.Tree
