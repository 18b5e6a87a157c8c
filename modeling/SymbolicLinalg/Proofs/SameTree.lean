import SymbolicLinalg.Proofs.Tandem
import SymbolicLinalg.Proofs.Traversal

/-!
# SameTree — what is made of one expression is one expression

Nodes of one tree may share their parts in different ways and have different identities.  The
standard hooks do not find out about it.  So what they make of such nodes has one tree again,
whatever workspaces they work in, or they are refused for one reason.

* `SameOutcome`: outcomes that differ in sharing and identities at most;
* `sameTrees`: nodes of one tree, as a `Frame`;
* `Standard.blind`: the standard hooks do not tell corresponding nodes apart, in any frame;
* `Standard.checkedExpansion?_tandem`: expansions of corresponding nodes.
-/

namespace SymbolicLinalg

variable {K W : Type} [Preorder W]

theorem Node.sameTree_application {ns ms : List (Node K)} (i j : NodeId) (s : Signature)
    (operands : List.Forall₂ Node.SameTree ns ms) :
    Node.SameTree (.application i s ns) (.application j s ms) := by
  rw [Node.SameTree, Node.tree_application, Node.tree_application,
    map_eq_of_forall₂ operands fun _ _ _ same => same]

/-- Both outcomes are nodes of one tree, or both are the same fault. -/
inductive SameOutcome : Except Fault (Node K) → Except Fault (Node K) → Prop where
  | value {n m : Node K} : n.SameTree m → SameOutcome (.ok n) (.ok m)
  | fault (f : Fault) : SameOutcome (.error f) (.error f)

namespace SameOutcome

variable {first second third : Except Fault (Node K)}

theorem symm (h : SameOutcome first second) : SameOutcome second first := by
  cases h with
  | value same => exact .value same.symm
  | fault f => exact .fault f

theorem trans (h : SameOutcome first second) (h' : SameOutcome second third) :
    SameOutcome first third := by
  cases h with
  | value same =>
      cases h' with
      | value same' => exact .value (same'.trans same)
  | fault f => exact h'

end SameOutcome

theorem Concurs.sameOutcome {S S' : Type} {I : W → S → S' → Prop} {u : W} {s : S} {s' : S'}
    {outcome outcome' : Except Fault (Node K)}
    (h : Concurs I (fun _ => Node.SameTree) u (outcome, s) (outcome', s')) :
    SameOutcome outcome outcome' := by
  cases h with
  | value _ same _ => exact .value same
  | fault _ _ => exact .fault _

/-- The one world of runs of which only trees are known: in it, nothing is left to come. -/
inductive Timeless where
  | world

instance : Preorder Timeless where
  le _ _ := True
  le_refl _ := trivial
  le_trans _ _ _ _ _ := trivial

/-- Nodes of one tree correspond, whatever identities are next. -/
def sameTrees (K : Type) : Frame K Timeless where
  nodes _ := Node.SameTree
  mono _ := id
  resembles _ := Node.resembles_sameTree
  next _ _ _ := True
  fresh _ := ⟨.world, le_rfl, trivial, fun _ => rfl, fun s _ _ => Node.sameTree_application _ _ s⟩

namespace Standard

variable [Arithmetic K] [Numeral K] {F : Frame K W} {u : W} {s : Signature} {ns ms : List (Node K)}

theorem blind (F : Frame K W) : F.Blind (Registry.standard : Registry K) := by
  intro d hd optimize hook u ns ms operands
  rcases exists_operator hd with ⟨o, rfl⟩
  exact o.accords_optimize (F.resembles u) operands hook

theorem expansion?_tandem (operands : List.Forall₂ (F.nodes u) ns ms) :
    Tandem F.Stands (fun v => Option.Rel fun p p' => p.1 = p'.1 ∧ F.nodes v p.2 p'.2) u
      ((Registry.standard : Registry K).expansion? s ns)
      ((Registry.standard : Registry K).expansion? s ms) := by
  have makes := Frame.make_tandem (blind F)
  rw [Registry.expansion?, Registry.expansion?]
  cases replaces : ((Registry.standard : Registry K).hooks s).replace with
  | some replace =>
      rcases operator_of_hook (·.replace) rfl replaces with ⟨o, _, hook⟩
      refine (makes.follow_tandem (P := F.nodes) fun v later => ?_).bind fun v _ _ _ related => ?_
      · exact o.accords_replace (F.resembles v) (Frame.all_mono later operands) hook
      · exact .value (.some ⟨rfl, related⟩)
  | none =>
      cases expands : ((Registry.standard : Registry K).hooks s).expand with
      | none => exact .value .none
      | some expand =>
          rcases operator_of_hook (·.expand) rfl expands with ⟨o, _, hook⟩
          refine (makes.follow_tandem (P := fun v => Option.Rel (F.nodes v))
            fun v later => ?_).bind fun v n? m? _ related => ?_
          · exact o.accords_expand (F.resembles v) (Frame.all_mono later operands) hook
          · rcases related with related | _
            · exact .value (.some ⟨rfl, related⟩)
            · exact .value .none

/-- Over operands that correspond, hooks that lower an operator do the same. -/
theorem checkedExpansion?_tandem (operands : List.Forall₂ (F.nodes u) ns ms) :
    Tandem F.Stands (fun v => Option.Rel (F.nodes v)) u
      ((Registry.standard : Registry K).checkedExpansion? s ns)
      ((Registry.standard : Registry K).checkedExpansion? s ms) := by
  rw [Registry.checkedExpansion?, Registry.checkedExpansion?]
  refine (expansion?_tandem operands).bind fun v found found' _ related => ?_
  cases related with
  | none => exact .value .none
  | @some p p' related =>
      obtain ⟨hook, n⟩ := p
      obtain ⟨hook', m⟩ := p'
      obtain ⟨rfl, related⟩ : hook = hook' ∧ F.nodes v n m := related
      have shape := (F.resembles v related).shape
      dsimp only at shape ⊢
      rw [shape]
      refine Tandem.ite Iff.rfl (fun _ => .refuse _) fun _ => ?_
      exact (Frame.record_tandem _ _).bind fun w _ _ later _ => .value (.some (F.mono later related))

end Standard

end SymbolicLinalg
