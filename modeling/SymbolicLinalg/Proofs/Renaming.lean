import SymbolicLinalg.Proofs.Issue
import SymbolicLinalg.Proofs.SameTree

/-!
# Renaming — runs that hand out other identities

What a run makes gets identities from its workspace, so two runs that make the same nodes may give
them different identities.  A hook can tell whether two nodes are one and which was made first, but
nothing else about an identity.  Hooks are therefore said to be *indifferent*, if they do the same
with nodes of two runs that look alike and have their identities in the same order.

A hook that makes a leaf is not indifferent, since every leaf is different from all others.

* `Renaming`: what corresponds to what in two runs, which share the nodes made before them;
* `renamings`: renamings as worlds, which grow with every node that both runs make;
* `Registry.Indifferent`: the hooks of a registry are indifferent;
* `Standard.indifferent`: those of the standard operators are.
-/

namespace SymbolicLinalg

/-- Nodes of two runs that correspond.  They look alike, and the order of their identities is the same
in both runs.  Nodes with old identities belong to both runs, and so do all leaves. -/
structure Renaming (K : Type) (old : NodeId) where
  nodes : Node K → Node K → Prop
  resembles : Node.Resembles nodes
  shared : ∀ {n : Node K}, n.Older old → nodes n n
  ordered : ∀ {n m n' m' : Node K}, nodes n m → nodes n' m' → (n.id < n'.id ↔ m.id < m'.id)
  leaves : ∀ {i j : NodeId} {name : String} {s : Shape},
    nodes (.leaf i name s) (.leaf j name s) → j = i

namespace Renaming

variable {K : Type} {old : NodeId} {n m : Node K}

/-- One renaming is later than another if it has more nodes correspond. -/
instance : Preorder (Renaming K old) where
  le u v := ∀ ⦃n m⦄, u.nodes n m → v.nodes n m
  le_refl _ _ _ := id
  le_trans _ _ _ before after _ _ related := after (before related)

theorem id_eq (u : Renaming K old) (older : n.Older old) (related : u.nodes n m) : m.id = n.id := by
  -- the node corresponds to itself, and no identity comes before itself
  have below := (u.ordered (u.shared older) related).not.1 (Nat.lt_irrefl _)
  have above := (u.ordered related (u.shared older)).not.1 (Nat.lt_irrefl _)
  exact Nat.le_antisymm (Nat.not_lt.1 below) (Nat.not_lt.1 above)

/-- Old nodes correspond to themselves only. -/
theorem eq_of_older (u : Renaming K old) (older : n.Older old) (related : u.nodes n m) : m = n := by
  have same := u.id_eq older related
  induction n using Node.induct generalizing m with
  | constant id v =>
      rcases u.resembles related with _ | _ | _
      rw [Node.id] at same
      exact same ▸ rfl
  | leaf id name s =>
      rcases u.resembles related with _ | _ | _
      exact u.leaves related ▸ rfl
  | application id s ns ih =>
      rcases u.resembles related with _ | _ | @⟨_, j, _, _, ms, operands⟩
      have all : ms.map (fun y => y) = ns.map fun x => x := by
        refine map_eq_of_forall₂ operands fun x hx y hxy => ?_
        have olderX := older.of_reaches (.of_mem_operands hx)
        exact ih x hx olderX hxy (u.id_eq olderX hxy)
      rw [List.map_id', List.map_id'] at all
      rw [Node.id_application, Node.id_application] at same
      rw [all, same]

/-- Nodes that correspond are one expression. -/
theorem sameTree (u : Renaming K old) (related : u.nodes n m) : n.SameTree m :=
  u.resembles.tree (fun _ _ _ _ => u.leaves) related

/-! ## Growth -/

/-- The identities are later than those of all nodes that correspond. -/
def Next (u : Renaming K old) (i j : NodeId) : Prop :=
  ∀ ⦃n m⦄, u.nodes n m → n.id < i ∧ m.id < j

/-- Nodes that correspond when both runs have made a node, with the identities given. -/
inductive Made (u : Renaming K old) (i j : NodeId) : Node K → Node K → Prop where
  | before {n m : Node K} : u.nodes n m → Made u i j n m
  | constant (v : Literal K) : Made u i j (.constant i v) (.constant j v)
  | application (s : Signature) {ns ms : List (Node K)} :
      List.Forall₂ u.nodes ns ms → Made u i j (.application i s ns) (.application j s ms)

variable {u : Renaming K old} {i j : NodeId}

theorem Made.cases_id (h : u.Made i j n m) : u.nodes n m ∨ n.id = i ∧ m.id = j := by
  cases h with
  | before related => exact .inl related
  | constant | application => exact .inr ⟨rfl, rfl⟩

/-- The renaming after both runs have made a node. -/
def grow (u : Renaming K old) {i j : NodeId} (next : u.Next i j) : Renaming K old where
  nodes := u.Made i j
  resembles n m made := by
    cases made with
    | before related => exact (u.resembles related).imp fun _ _ => .before
    | constant v => exact .constant i j v
    | application s operands => exact .application i j s (operands.imp fun _ _ => .before)
  shared older := .before (u.shared older)
  ordered made made' := by
    -- the new node comes after all others, in both runs
    rcases made.cases_id with related | ⟨new, new'⟩ <;>
      rcases made'.cases_id with related' | ⟨again, again'⟩
    · exact u.ordered related related'
    · rw [again, again']
      exact iff_of_true (next related).1 (next related).2
    · rw [new, new']
      exact iff_of_false (next related').1.not_gt (next related').2.not_gt
    · rw [new, new', again, again']
      exact iff_of_false (Nat.lt_irrefl i) (Nat.lt_irrefl j)
  leaves made := by
    cases made with
    | before related => exact u.leaves related

/-- Before the runs, nodes with old identities are all there are. -/
def start (K : Type) (old : NodeId) : Renaming K old where
  nodes n m := m = n ∧ n.Older old
  resembles := by
    rintro n m ⟨same, older⟩
    subst same
    cases m with
    | constant id v => exact .constant id id v
    | leaf id name s => exact .leaf id id name s
    | application id s operands =>
        refine .application id id s (List.forall₂_same.2 fun m hm => ⟨rfl, ?_⟩)
        exact older.of_reaches (.of_mem_operands hm)
  shared older := ⟨rfl, older⟩
  ordered := by
    rintro n _ n' _ ⟨rfl, _⟩ ⟨rfl, _⟩
    exact Iff.rfl
  leaves h := (Node.leaf.inj h.1).1

theorem next_start (first : old ≤ i) (second : old ≤ j) : (start K old).Next i j := by
  rintro n _ ⟨rfl, older⟩
  have earlier := older _ (.refl _)
  exact ⟨Nat.lt_of_lt_of_le earlier first, Nat.lt_of_lt_of_le earlier second⟩

theorem Next.mono {k : NodeId} (h : u.Next i j) (later : i ≤ k) : u.Next k j :=
  fun _ _ related => ⟨Nat.lt_of_lt_of_le (h related).1 later, (h related).2⟩

end Renaming

/-- Renamings, as worlds. -/
def renamings (K : Type) (old : NodeId) : Frame K (Renaming K old) where
  nodes u := u.nodes
  mono later related := later related
  resembles u := u.resembles
  next u := u.Next
  fresh {u i j} next := by
    refine ⟨u.grow next, fun _ _ => .before, fun n m made => ?_, .constant,
      fun s ns ms => .application s⟩
    rcases made.cases_id with related | ⟨rfl, rfl⟩
    · exact ⟨Nat.lt_succ_of_lt (next related).1, Nat.lt_succ_of_lt (next related).2⟩
    · exact ⟨Nat.lt_succ_self _, Nat.lt_succ_self _⟩

/-! ## Hooks -/

section

variable {K : Type}

/-- Contributions of gradients that correspond, to operands that correspond. -/
def Correspondence.contributing (M : Node K → Node K → Prop) :
    Correspondence K (Contribution K) Unit where
  nodes := M
  asked c c' := M c.operand c'.operand ∧ M c.gradient c'.gradient
  answered _ _ := True

/-- What hooks contribute is a function of the upstream gradient and the operands, and of the nodes that
the hooks have captured, which have old identities.  The same goes for the hooks that simplify, which
take part in every construction. -/
structure Registry.Indifferent (r : Registry K) (old : NodeId) : Prop where
  optimize : (renamings K old).Blind r
  gradient : ∀ s gradient, (r.hooks s).gradient = some gradient →
    ∀ (u : Renaming K old) g g' ns ms, u.nodes g g' → List.Forall₂ u.nodes ns ms →
      (gradient g ns).Accords (.contributing u.nodes) (fun _ _ => True) (gradient g' ms)

end

namespace Standard

variable {K : Type} [Arithmetic K] [Numeral K]

/-- The standard operators have captured the generators of the axis rotations, and nothing else. -/
theorem indifferent {old : NodeId} (late : (Workspace.standard : Workspace K).nextId ≤ old) :
    (Registry.standard : Registry K).Indifferent old where
  optimize := blind (renamings K old)
  gradient s gradient hook u g g' ns ms upstream operands := by
    rcases operator_of_hook (·.gradient) rfl hook with ⟨o, _, hook⟩
    have contributing : Contributing (.contributing u.nodes) u.nodes := by
      refine ⟨u.resembles, fun _ _ => id, fun _ _ _ _ ha hg => ⟨ha, hg⟩, fun {id r} found => ?_⟩
      refine u.shared fun x below => ?_
      rw [below.eq_of_operands_eq_nil rfl]
      exact Nat.lt_of_lt_of_le (List.getElem?_eq_some_iff.1 found).1 late
    exact o.accords_gradient contributing operands upstream hook

end Standard

end SymbolicLinalg
