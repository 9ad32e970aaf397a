import Mathlib.Data.List.Nodup
import Mathlib.Data.List.Perm.Subperm
import Mathlib.Data.List.Range

/-!
# Linked nodes

A heap of nodes, each with a value and a link to another node or to none
(`Nodes.Heap`), and what it means that a pointer leads to a list: `Nodes.Chain` follows
the links and says which nodes, with which values, are met on the way to the null
pointer.

Nothing has to be assumed about such a chain beyond that it ends. A node cannot occur
twice on it, since the links from there on would be the same both times
(`Nodes.Chain.nodup`), and so it is no longer than the heap
(`Nodes.Chain.length_le`): a walk that is given as many steps as there are nodes always
reaches the end.

A function that walks down a chain and rewrites it is described by the chain it leaves
and by what it did not touch. `Nodes.Frame` says the second, and `Nodes.Chain.frame`
is the only rule that is needed to put the part before the walk back in front of it.
-/

namespace Nodes

/-- A node: its value and its link. -/
structure Node (α : Type*) where
  value : α
  next : Option ℕ
deriving DecidableEq, Repr

/-- The nodes that were ever made, the address of a node being its place. -/
structure Heap (α : Type*) where
  nodes : List (Node α)
deriving DecidableEq, Repr

namespace Heap

variable {α : Type*}

/-- How many nodes there are, which is also the next address. -/
def size (h : Heap α) : ℕ := h.nodes.length

/-- The node at an address. -/
def read (h : Heap α) (a : ℕ) : Option (Node α) := h.nodes[a]?

/-- A node put at an address that has one. -/
def write (h : Heap α) (a : ℕ) (n : Node α) : Heap α := ⟨h.nodes.set a n⟩

/-- A new node, with no link. -/
def make (h : Heap α) (v : α) : Heap α := ⟨h.nodes ++ [⟨v, none⟩]⟩

/-- The assignment to the link of a node. -/
def setNext (h : Heap α) (a : ℕ) (p : Option ℕ) : Option (Heap α) :=
  (h.read a).map fun n => h.write a { n with next := p }

/-- The assignment to the value of a node. -/
def setValue (h : Heap α) (a : ℕ) (v : α) : Option (Heap α) :=
  (h.read a).map fun n => h.write a { n with value := v }

@[simp] theorem size_write (h : Heap α) (a : ℕ) (n : Node α) : (h.write a n).size = h.size := by
  simp [size, write]

@[simp] theorem size_make (h : Heap α) (v : α) : (h.make v).size = h.size + 1 := by
  simp [size, make]

theorem lt_size_of_read {h : Heap α} {a : ℕ} {n : Node α} (hr : h.read a = some n) :
    a < h.size := by
  by_contra hlt
  rw [read, List.getElem?_eq_none (by simpa [size] using hlt)] at hr
  simp at hr

theorem read_write_self {h : Heap α} {a : ℕ} (n : Node α) (ha : a < h.size) :
    (h.write a n).read a = some n := by
  simp only [read, write]
  exact List.getElem?_set_self ha

theorem read_write_of_ne {h : Heap α} {a b : ℕ} (n : Node α) (hab : a ≠ b) :
    (h.write a n).read b = h.read b := by
  simp [read, write, hab]

theorem read_make_self (h : Heap α) (v : α) : (h.make v).read h.size = some ⟨v, none⟩ := by
  simp [read, make, size]

theorem read_make_of_lt {h : Heap α} {a : ℕ} (v : α) (ha : a < h.size) :
    (h.make v).read a = h.read a := by
  simp only [read, make]
  exact List.getElem?_append_left ha

theorem setNext_of_read {h : Heap α} {a : ℕ} {n : Node α} (hr : h.read a = some n)
    (p : Option ℕ) : h.setNext a p = some (h.write a ⟨n.value, p⟩) := by
  simp [setNext, hr]

theorem setValue_of_read {h : Heap α} {a : ℕ} {n : Node α} (hr : h.read a = some n)
    (v : α) : h.setValue a v = some (h.write a ⟨v, n.next⟩) := by
  simp [setValue, hr]

end Heap

variable {α : Type*} {h h' h'' : Heap α} {p : Option ℕ} {cells : List (ℕ × α)}

/-! ### What is left alone -/

/-- The step from `h` to `h'` writes only to new nodes and to the nodes of `S`. -/
structure Frame (S : List ℕ) (h h' : Heap α) : Prop where
  size_le : h.size ≤ h'.size
  read_eq : ∀ a < h.size, a ∉ S → h'.read a = h.read a

theorem Frame.refl (S : List ℕ) (h : Heap α) : Frame S h h := ⟨le_rfl, fun _ _ _ => rfl⟩

theorem Frame.trans {S : List ℕ} (h₁ : Frame S h h') (h₂ : Frame S h' h'') : Frame S h h'' where
  size_le := h₁.size_le.trans h₂.size_le
  read_eq a ha hS := by rw [h₂.read_eq a (ha.trans_le h₁.size_le) hS, h₁.read_eq a ha hS]

theorem Frame.mono {S T : List ℕ} (hf : Frame S h h') (hST : S ⊆ T) : Frame T h h' where
  size_le := hf.size_le
  read_eq a ha hT := hf.read_eq a ha fun hS => hT (hST hS)

/-- What is done to nodes that are themselves new is not seen from before. -/
theorem Frame.trans_new {S T : List ℕ} (h₁ : Frame S h h') (h₂ : Frame T h' h'')
    (hT : ∀ a ∈ T, h.size ≤ a) : Frame S h h'' where
  size_le := h₁.size_le.trans h₂.size_le
  read_eq a ha hS := by
    rw [h₂.read_eq a (ha.trans_le h₁.size_le) fun hmem => absurd (hT a hmem) (by omega),
      h₁.read_eq a ha hS]

theorem frame_write {S : List ℕ} {a : ℕ} (n : Node α) (ha : a ∈ S ∨ h.size ≤ a) :
    Frame S h (h.write a n) where
  size_le := by simp
  read_eq b hb hS := by
    refine Heap.read_write_of_ne n fun hab => ?_
    rcases ha with ha | ha
    · exact hS (hab ▸ ha)
    · omega

theorem frame_make (S : List ℕ) (v : α) : Frame S h (h.make v) where
  size_le := by simp
  read_eq a ha _ := Heap.read_make_of_lt v ha

/-! ### Chains -/

/-- Following the links from `p` meets these nodes, with these values, and then the
null pointer. -/
def Chain (h : Heap α) : Option ℕ → List (ℕ × α) → Prop
  | p, [] => p = none
  | p, c :: cells => p = some c.1 ∧ ∃ next, h.read c.1 = some ⟨c.2, next⟩ ∧ Chain h next cells

/-- The addresses of a list of cells. -/
abbrev addresses (cells : List (ℕ × α)) : List ℕ := cells.map Prod.fst

/-- The values of a list of cells. -/
abbrev values (cells : List (ℕ × α)) : List α := cells.map Prod.snd

@[simp] theorem chain_nil : Chain h p [] ↔ p = none := Iff.rfl

theorem Chain.lt_size (hc : Chain h p cells) : ∀ a ∈ addresses cells, a < h.size := by
  induction cells generalizing p with
  | nil => simp
  | cons c cells ih =>
    obtain ⟨-, next, hr, hrest⟩ := hc
    rw [addresses, List.map_cons, List.forall_mem_cons]
    exact ⟨Heap.lt_size_of_read hr, ih hrest⟩

/-- **A chain survives what does not touch its nodes.** -/
theorem Chain.frame {S : List ℕ} (hc : Chain h p cells) (hf : Frame S h h')
    (hS : ∀ a ∈ addresses cells, a ∉ S) : Chain h' p cells := by
  induction cells generalizing p with
  | nil => exact hc
  | cons c cells ih =>
    obtain ⟨hp, next, hr, hrest⟩ := hc
    rw [addresses, List.map_cons, List.forall_mem_cons] at hS
    refine ⟨hp, next, ?_, ih hrest hS.2⟩
    rw [hf.read_eq _ (Heap.lt_size_of_read hr) hS.1, hr]

/-- The nodes on the way from a pointer are determined. -/
theorem Chain.unique {cells' : List (ℕ × α)} (hc : Chain h p cells) (hc' : Chain h p cells') :
    cells = cells' := by
  induction cells generalizing p cells' with
  | nil =>
    cases cells' with
    | nil => rfl
    | cons c' cells' =>
      obtain ⟨hp, -⟩ := hc'
      rw [chain_nil.mp hc] at hp
      cases hp
  | cons c cells ih =>
    obtain ⟨hp, next, hr, hrest⟩ := hc
    cases cells' with
    | nil =>
      rw [chain_nil.mp hc'] at hp
      cases hp
    | cons c' cells' =>
      obtain ⟨hp', next', hr', hrest'⟩ := hc'
      have haddr : c.1 = c'.1 := Option.some.inj (hp.symm.trans hp')
      rw [haddr, hr', Option.some.injEq, Node.mk.injEq] at hr
      obtain ⟨hv, rfl⟩ := hr
      rw [ih hrest hrest', Prod.ext haddr hv.symm]

/-- The rest of a chain from one of its nodes. -/
theorem Chain.exists_suffix {a : ℕ} (hc : Chain h p cells) (ha : a ∈ addresses cells) :
    ∃ cells', Chain h (some a) cells' ∧ cells'.length ≤ cells.length := by
  induction cells generalizing p with
  | nil => simp at ha
  | cons c cells ih =>
    obtain ⟨hp, next, hr, hrest⟩ := hc
    rcases List.mem_cons.mp ha with rfl | ha
    · exact ⟨c :: cells, ⟨rfl, next, hr, hrest⟩, le_rfl⟩
    · obtain ⟨cells', hc', hlen⟩ := ih hrest ha
      exact ⟨cells', hc', hlen.trans (Nat.le_succ _)⟩

/-- **No node occurs twice**: a chain that came back to a node would go on from there as
it did before, and never end. -/
theorem Chain.nodup (hc : Chain h p cells) : (addresses cells).Nodup := by
  induction cells generalizing p with
  | nil => simp
  | cons c cells ih =>
    obtain ⟨hp, next, hr, hrest⟩ := hc
    rw [addresses, List.map_cons, List.nodup_cons]
    refine ⟨fun hmem => ?_, ih hrest⟩
    obtain ⟨cells', hc', hlen⟩ := hrest.exists_suffix hmem
    have hsame : cells' = c :: cells := hc'.unique ⟨rfl, next, hr, hrest⟩
    rw [hsame, List.length_cons] at hlen
    omega

/-- A chain is no longer than the heap. -/
theorem Chain.length_le (hc : Chain h p cells) : cells.length ≤ h.size := by
  have hsub : addresses cells ⊆ List.range h.size := fun a ha =>
    List.mem_range.mpr (hc.lt_size a ha)
  simpa using (List.subperm_of_subset hc.nodup hsub).length_le

/-- What is stored at a node of a chain. -/
theorem Chain.exists_read {c : ℕ × α} (hc : Chain h p cells) (hmem : c ∈ cells) :
    ∃ next, h.read c.1 = some ⟨c.2, next⟩ := by
  induction cells generalizing p with
  | nil => simp at hmem
  | cons d cells ih =>
    obtain ⟨-, next, hr, hrest⟩ := hc
    rcases List.mem_cons.mp hmem with rfl | hmem
    · exact ⟨next, hr⟩
    · exact ih hrest hmem

theorem Chain.notMem_of_cons {c : ℕ × α} (hc : Chain h p (c :: cells)) :
    c.1 ∉ addresses cells :=
  (List.nodup_cons.mp hc.nodup).1

/-- **The node in front of a rewritten chain.** What was done behind it left it
alone. -/
theorem Chain.cons_frame {S : List ℕ} {a : ℕ} {v : α} {q : Option ℕ}
    {cells' : List (ℕ × α)} (hr : h.read a = some ⟨v, q⟩) (hf : Frame S h h') (ha : a ∉ S)
    (hc : Chain h' q cells') : Chain h' (some a) ((a, v) :: cells') :=
  ⟨rfl, q, by rw [hf.read_eq a (Heap.lt_size_of_read hr) ha, hr], hc⟩

/-- The pointer `p` leads to the list `l`. -/
def PointsTo (h : Heap α) (p : Option ℕ) (l : List α) : Prop :=
  ∃ cells, Chain h p cells ∧ values cells = l

theorem pointsTo_none (h : Heap α) : PointsTo h none [] := ⟨[], rfl, rfl⟩

/-- Null is the pointer to the empty list, and to no other. -/
theorem PointsTo.eq_none_iff {l : List α} (hl : PointsTo h p l) : p = none ↔ l = [] := by
  obtain ⟨cells, hc, rfl⟩ := hl
  cases cells with
  | nil => simpa using hc
  | cons c cells => simp [hc.1]

/-- New nodes leave every list as it was. -/
theorem PointsTo.frame {l : List α} (hl : PointsTo h p l) (hf : Frame [] h h') :
    PointsTo h' p l := by
  obtain ⟨cells, hc, rfl⟩ := hl
  exact ⟨cells, hc.frame hf (by simp), rfl⟩

/-- A node linked behind the last one of a chain. -/
theorem Chain.snoc {a b : ℕ} {v w : α} (hc : Chain h p (cells ++ [(a, v)]))
    (hb : h.read b = some ⟨w, none⟩) (hnew : b ∉ addresses (cells ++ [(a, v)])) :
    Chain (h.write a ⟨v, some b⟩) p (cells ++ [(a, v), (b, w)]) := by
  induction cells generalizing p with
  | nil =>
    obtain ⟨hp, next, hr, hrest⟩ := hc
    have hab : a ≠ b := by
      rintro rfl
      exact hnew (by simp)
    refine ⟨hp, some b, Heap.read_write_self _ (Heap.lt_size_of_read hr), rfl, none, ?_, rfl⟩
    rw [Heap.read_write_of_ne _ hab, hb]
  | cons c cells ih =>
    have hca : a ≠ c.1 := by
      rintro rfl
      exact hc.notMem_of_cons (by simp)
    obtain ⟨hp, next, hr, hrest⟩ := hc
    refine ⟨hp, next, ?_, ih hrest fun hmem => hnew (by simp at hmem ⊢; tauto)⟩
    rw [Heap.read_write_of_ne _ hca, hr]

/-! ### A list built from the front to the back -/

/-- A list that is being built, on a heap that was `h₀` before: `first` leads to it and
`last` is its last node, and all of its nodes are new. -/
structure Built (h₀ h : Heap α) (first last : Option ℕ) (l : List α) : Prop where
  frame : Frame [] h₀ h
  chain : ∃ cells, Chain h first cells ∧ values cells = l ∧
    last = cells.getLast?.map Prod.fst ∧ ∀ a ∈ addresses cells, h₀.size ≤ a

theorem built_nil (h : Heap α) : Built h h none none [] where
  frame := Frame.refl _ _
  chain := ⟨[], rfl, rfl, rfl, by simp⟩

theorem Built.pointsTo {h₀ : Heap α} {last : Option ℕ} {l : List α}
    (hb : Built h₀ h p last l) : PointsTo h p l := by
  obtain ⟨cells, hc, hvalues, -, -⟩ := hb.chain
  exact ⟨cells, hc, hvalues⟩

/-- The first node of the list. -/
theorem Built.first {h₀ : Heap α} {last : Option ℕ} {l : List α} (hb : Built h₀ h none last l)
    (v : α) : Built h₀ (h.make v) (some h.size) (some h.size) (l ++ [v]) where
  frame := hb.frame.trans (frame_make [] v)
  chain := by
    rw [hb.pointsTo.eq_none_iff.mp rfl]
    refine ⟨[(h.size, v)], ⟨rfl, none, Heap.read_make_self h v, rfl⟩, rfl, rfl, ?_⟩
    simpa using hb.frame.size_le

/-- One more node, behind the last one. -/
theorem Built.snoc {h₀ : Heap α} {a : ℕ} {last : Option ℕ} {l : List α}
    (hb : Built h₀ h (some a) last l) (v : α) :
    ∃ b h', last = some b ∧ (h.make v).setNext b (some h.size) = some h' ∧
      Built h₀ h' (some a) (some h.size) (l ++ [v]) := by
  obtain ⟨cells, hc, rfl, rfl, hnew⟩ := hb.chain
  obtain ⟨init, ⟨b, w⟩, rfl⟩ : ∃ init c, cells = init ++ [c] := by
    refine ⟨cells.dropLast, cells.getLast ?_, (List.dropLast_append_getLast _).symm⟩
    rintro rfl
    simp at hc
  have hmade : Chain (h.make v) (some a) (init ++ [(b, w)]) := hc.frame (frame_make [] v) (by simp)
  have hfresh : h.size ∉ addresses (init ++ [(b, w)]) := fun hmem =>
    absurd (hc.lt_size _ hmem) (lt_irrefl _)
  obtain ⟨next, hread⟩ := hmade.exists_read (c := (b, w)) (by simp)
  have hle : h₀.size ≤ b := hnew b (by simp)
  refine ⟨b, _, by simp, Heap.setNext_of_read hread _, ?_, init ++ [(b, w), (h.size, v)], ?_⟩
  · exact (hb.frame.trans (frame_make [] v)).trans_new (frame_write (S := [b]) _ (by simp))
      (by simpa using hle)
  · refine ⟨hmade.snoc (Heap.read_make_self h v) hfresh, by simp, by simp, ?_⟩
    simp only [addresses, List.map_append, List.map_cons, List.map_nil, List.mem_append,
      List.mem_cons, List.not_mem_nil, or_false] at hnew ⊢
    rintro x (hx | rfl | rfl)
    · exact hnew x (Or.inl hx)
    · exact hle
    · exact hb.frame.size_le

end Nodes
