import SymbolicLinalg.Build
import SymbolicLinalg.Node.Reach
import SymbolicLinalg.Proofs.Contract

/-!
# Growth — what construction adds to a graph

A hook is given nodes and makes new ones.  It *draws on* the nodes it is given, if it applies
operators to nothing but what lies below them or what it has made itself, puts no other nodes into
its requests, and hands out nothing else.  Then whatever it hands out is coherent with all nodes that
are around, since new nodes get identities that have not been handed out before.  The nodes that the
hooks of a registry have captured once and for all count as given.

* `Stock`: nodes that are around in a workspace, and the names of the operators that may be applied
  in some of them;
* `Recipe.Draws`: a recipe draws on given nodes;
* `Registry.make_grows`: construction adds to the stock, if the `optimize` hooks draw on the operands.
-/

namespace SymbolicLinalg

variable {K : Type}

namespace Node

variable {nodes more : List (Node K)} {n m : Node K}

/-- A node lies below one of some nodes. -/
def Below (nodes : List (Node K)) (n : Node K) : Prop :=
  ∃ k ∈ nodes, k.Reaches n

theorem Below.of_mem (h : n ∈ nodes) : Below nodes n :=
  ⟨n, h, .refl n⟩

theorem Below.of_reaches (h : Below nodes n) (below : n.Reaches m) : Below nodes m := by
  rcases h with ⟨k, hk, above⟩
  exact ⟨k, hk, above.trans below⟩

theorem Below.trans (h : Below more n) (all : ∀ k ∈ more, Below nodes k) : Below nodes n := by
  rcases h with ⟨k, hk, below⟩
  exact (all k hk).of_reaches below

theorem Below.mono (h : Below nodes n) (sub : nodes ⊆ more) : Below more n :=
  h.trans fun _ hk => .of_mem (sub hk)

theorem Coherent.eq_of_id_eq (h : Coherent nodes) (hn : Below nodes n) (hm : Below nodes m)
    (same : n.id = m.id) : n = m := by
  rcases hn with ⟨k, hk, hn⟩
  rcases hm with ⟨l, hl, hm⟩
  exact h k hk l hl n m hn hm same

theorem Coherent.of_below (h : Coherent nodes) (all : ∀ n ∈ more, Below nodes n) :
    Coherent more :=
  fun k hk l hl _ _ hn hm same =>
    h.eq_of_id_eq ((all k hk).of_reaches hn) ((all l hl).of_reaches hm) same

/-- A new node is coherent with older nodes, among which are its operands. -/
theorem Coherent.cons_of_fresh (h : Coherent nodes) (older : ∀ m ∈ nodes, m.Older n.id)
    (operands : ∀ m ∈ n.operands, Below nodes m) : Coherent (n :: nodes) := by
  -- below the new node are itself and what is below the older nodes
  have parts (k : Node K) (hk : k ∈ n :: nodes) (x : Node K) (hx : k.Reaches x) :
      x = n ∨ Below nodes x := by
    rcases List.mem_cons.1 hk with rfl | hk
    · rcases reaches_iff.1 hx with rfl | ⟨m, hm, hx⟩
      · exact .inl rfl
      · exact .inr ((operands m hm).of_reaches hx)
    · exact .inr ⟨k, hk, hx⟩
  have differs (x : Node K) (hx : Below nodes x) : x.id ≠ n.id := by
    rcases hx with ⟨k, hk, hx⟩
    exact Nat.ne_of_lt (older k hk x hx)
  intro k hk l hl x y hx hy same
  rcases parts k hk x hx with rfl | hx <;> rcases parts l hl y hy with rfl | hy
  · rfl
  · exact absurd same.symm (differs y hy)
  · exact absurd same (differs x hx)
  · exact h.eq_of_id_eq hx hy same

end Node

/-! ## The nodes that are around -/

/-- The given nodes and the others are coherent and older than the next identity; in the given ones
only operators of some names are applied. -/
structure Stock (names : String → Prop) (given others : List (Node K)) (next : NodeId) : Prop where
  coherent : Node.Coherent (given ++ others)
  older : ∀ n ∈ given ++ others, n.Older next
  only : ∀ n ∈ given, n.AppliesOnly fun s => names s.name

namespace Stock

variable {names : String → Prop} {given others : List (Node K)} {next : NodeId} {n : Node K}

/-- No two different nodes that are given have the same identity. -/
theorem coherent_given (h : Stock names given others next) : Node.Coherent given :=
  h.coherent.of_below fun _ hn => .of_mem (List.mem_append_left others hn)

theorem older_of_below (h : Stock names given others next) (below : Node.Below (given ++ others) n) :
    n.Older next := by
  rcases below with ⟨k, hk, below⟩
  exact (h.older k hk).of_reaches below

theorem only_of_below (h : Stock names given others next) (below : Node.Below given n) :
    n.AppliesOnly fun s => names s.name := by
  rcases below with ⟨k, hk, below⟩
  exact (h.only k hk).of_reaches below

/-- A node that is around may be given, if only operators of the names are applied in it. -/
theorem cons (h : Stock names given others next) (below : Node.Below (given ++ others) n)
    (only : n.AppliesOnly fun s => names s.name) : Stock names (n :: given) others next where
  coherent := h.coherent.of_below (List.forall_mem_cons.2 ⟨below, fun _ => .of_mem⟩)
  older := List.forall_mem_cons.2 ⟨h.older_of_below below, h.older⟩
  only := List.forall_mem_cons.2 ⟨only, h.only⟩

theorem cons_of_below (h : Stock names given others next) (below : Node.Below given n) :
    Stock names (n :: given) others next :=
  h.cons (below.mono (List.subset_append_left given others)) (h.only_of_below below)

theorem of_subset {fewer : List (Node K)} (h : Stock names given others next)
    (sub : fewer ⊆ given) : Stock names fewer others next := by
  have all : fewer ++ others ⊆ given ++ others :=
    List.append_subset.2 ⟨List.subset_append_of_subset_left others sub,
      List.subset_append_right given others⟩
  refine ⟨?_, fun n hn => h.older n (all hn), fun n hn => h.only n (sub hn)⟩
  exact h.coherent.of_below fun n hn => .of_mem (all hn)

/-- A node that has just been made over given nodes is added. -/
theorem cons_of_fresh (h : Stock names given others next) (id : n.id = next)
    (operands : ∀ m ∈ n.operands, Node.Below given m)
    (name : ∀ s, n.operator? = some s → names s.name) :
    Stock names (n :: given) others (next + 1) where
  coherent := by
    refine h.coherent.cons_of_fresh (id ▸ h.older) ?_
    intro m hm
    exact (operands m hm).mono (List.subset_append_left given others)
  older := by
    refine List.forall_mem_cons.2 ⟨fun x hx => ?_, fun m hm => (h.older m hm).mono (Nat.le_succ _)⟩
    rcases Node.reaches_iff.1 hx with rfl | ⟨m, hm, hx⟩
    · exact id ▸ Nat.lt_succ_self _
    · have older := h.older_of_below ((operands m hm).mono (List.subset_append_left given others))
      exact Nat.lt_succ_of_lt (older x hx)
  only := by
    refine List.forall_mem_cons.2 ⟨?_, h.only⟩
    cases n with
    | constant | leaf => exact Node.appliesOnly_of_plain rfl
    | application i s ns =>
        refine Node.appliesOnly_application.2 ⟨name s rfl, fun m hm => ?_⟩
        exact h.only_of_below (operands m hm)

end Stock

/-! ## Recipes that draw on nodes -/

/-- The operands lie below given nodes, and the operator has one of some names. -/
def Construction.Draws (names : String → Prop) (given : List (Node K)) : Construction K → Prop
  | .constant _ | .leaf _ _ => True
  | .apply name operands | .applyFor _ name operands =>
      names name ∧ ∀ m ∈ operands, Node.Below given m

theorem Construction.Draws.mono {names : String → Prop} {given more : List (Node K)}
    {c : Construction K} (h : c.Draws names given) (sub : given ⊆ more) : c.Draws names more := by
  cases c with
  | constant | leaf => trivial
  | apply | applyFor => exact ⟨h.1, fun m hm => (h.2 m hm).mono sub⟩

/-- Which nodes a request shows to the pass, and which nodes an answer hands out. -/
class Dialogue (K ρ σ : Type) where
  shows : ρ → List (Node K)
  hands : σ → List (Node K)

instance : Dialogue K Empty Empty :=
  ⟨Empty.elim, Empty.elim⟩

instance : Dialogue K (Node K) (Node K) :=
  ⟨fun n => [n], fun m => [m]⟩

instance : Dialogue K (Contribution K) Unit :=
  ⟨fun c => [c.operand, c.gradient], fun _ => []⟩

namespace Recipe

variable {ρ σ α β : Type} [Dialogue K ρ σ] {names : String → Prop} {given : List (Node K)}

/-- All constructions and requests of a recipe draw on given nodes, on what the recipe has made and
on what it has been handed, and the result has a property that speaks of these nodes. -/
def Draws (names : String → Prop) :
    Recipe K ρ σ α → List (Node K) → (List (Node K) → α → Prop) → Prop
  | .done a, given, post => post given a
  | .refuse _, _, _ => True
  | .make c next, given, post =>
      c.Draws names given ∧ ∀ n, (next n).Draws names (n :: given) post
  | .ask request next, given, post =>
      (∀ n ∈ Dialogue.shows σ request, Node.Below given n) ∧
        ∀ answer, (next answer).Draws names (Dialogue.hands ρ answer ++ given) post

namespace Draws

theorem mono {recipe : Recipe K ρ σ α} {post post' : List (Node K) → α → Prop}
    (h : recipe.Draws names given post') (imp : ∀ now a, post' now a → post now a) :
    recipe.Draws names given post := by
  induction recipe generalizing given with
  | done a => exact imp given a h
  | refuse e => trivial
  | make c next ih => exact ⟨h.1, fun n => ih n (h.2 n)⟩
  | ask request next ih => exact ⟨h.1, fun answer => ih answer (h.2 answer)⟩

/-- Nodes that have been given stay at hand. -/
theorem keeps {recipe : Recipe K ρ σ α} {post : List (Node K) → α → Prop}
    (h : recipe.Draws names given post) :
    recipe.Draws names given fun now a => given ⊆ now ∧ post now a := by
  induction recipe generalizing given with
  | done a => exact ⟨List.Subset.refl given, h⟩
  | refuse e => trivial
  | make c next ih =>
      refine ⟨h.1, fun n => (ih n (h.2 n)).mono ?_⟩
      exact fun now a ⟨sub, ha⟩ => ⟨List.subset_of_cons_subset sub, ha⟩
  | ask request next ih =>
      refine ⟨h.1, fun answer => (ih answer (h.2 answer)).mono ?_⟩
      exact fun now a ⟨sub, ha⟩ => ⟨(List.append_subset.1 sub).2, ha⟩

theorem allow {allowed : String → Prop} {recipe : Recipe K ρ σ α}
    {post : List (Node K) → α → Prop} (h : recipe.Draws names given post)
    (imp : ∀ name, names name → allowed name) : recipe.Draws allowed given post := by
  induction recipe generalizing given with
  | done a => exact h
  | refuse e => trivial
  | make c next ih =>
      refine ⟨?_, fun n => ih n (h.2 n)⟩
      cases c with
      | constant | leaf => trivial
      | apply | applyFor => exact h.1.imp_left (imp _)
  | ask request next ih => exact ⟨h.1, fun answer => ih answer (h.2 answer)⟩

theorem bind {recipe : Recipe K ρ σ α} {next : α → Recipe K ρ σ β}
    {post : List (Node K) → β → Prop}
    (h : recipe.Draws names given fun now a => (next a).Draws names now post) :
    (recipe >>= next).Draws names given post := by
  change (Recipe.bind recipe next).Draws names given post
  induction recipe generalizing given with
  | done a => exact h
  | refuse e => trivial
  | make c rest ih => exact ⟨h.1, fun n => ih n (h.2 n)⟩
  | ask request rest ih => exact ⟨h.1, fun answer => ih answer (h.2 answer)⟩

theorem map {recipe : Recipe K ρ σ α} {f : α → β} {post : List (Node K) → β → Prop}
    (h : recipe.Draws names given fun now a => post now (f a)) :
    (f <$> recipe).Draws names given post :=
  bind h

/-- A recipe for each element of a list hands out a node for each. -/
theorem each {l : List β} {f : β → Recipe K ρ σ (Node K)}
    (h : ∀ b ∈ l, ∀ now, given ⊆ now → (f b).Draws names now Node.Below) :
    (Recipe.each f l).Draws names given fun now ns => ∀ n ∈ ns, Node.Below now n := by
  induction l generalizing given with
  | nil => exact fun n hn => absurd hn List.not_mem_nil
  | cons b rest ih =>
      have first := h b List.mem_cons_self given (List.Subset.refl given)
      refine bind (first.keeps.mono fun now n ⟨sub, hn⟩ => bind ?_)
      have others := ih fun c hc later sub' =>
        h c (List.mem_cons_of_mem b hc) later (List.Subset.trans sub sub')
      refine others.keeps.mono fun later ns ⟨sub', hns⟩ => ?_
      exact List.forall_mem_cons.2 ⟨hn.mono sub', hns⟩

end Draws

end Recipe

/-! ## Construction -/

/-- Making a node that draws on the stock adds it to the stock, and giving up leaves the stock as it
was. -/
def Grows (names : String → Prop) (captured : List (Node K))
    (make : Construction K → Work K (Node K)) : Prop :=
  ∀ c given others, captured ⊆ given → c.Draws names given →
    Triple (fun w => Stock names given others w.nextId) (make c)
      (fun n w => Stock names (n :: given) others w.nextId)
      fun _ w => Stock names given others w.nextId

variable {α : Type} {names : String → Prop} {captured given others : List (Node K)}

/-- Carrying out a rule adds to the stock what the rule makes. -/
theorem Recipe.Draws.triple {rule : Rule K α} {post : List (Node K) → α → Prop}
    (h : rule.Draws names given post) (others : List (Node K))
    {make : Construction K → Work K (Node K)} (grows : Grows names captured make)
    (held : captured ⊆ given) :
    Triple (fun w => Stock names given others w.nextId) (Registry.follow make rule)
      (fun a w => ∃ now, given ⊆ now ∧ post now a ∧ Stock names now others w.nextId)
      fun _ w => Stock names given others w.nextId := by
  induction rule generalizing given with
  | done a => exact .value fun w stock => ⟨given, List.Subset.refl given, h, stock⟩
  | refuse e => exact .refuse fun _ stock => stock
  | make c next ih =>
      have now (n : Node K) : captured ⊆ n :: given := List.subset_cons_of_subset n held
      refine (grows c given others held h.1).bind fun n =>
        (ih n (h.2 n) (now n)).weaken (fun _ stock => stock) ?_ ?_
      · exact fun a w ⟨now, sub, ha, stock⟩ => ⟨now, List.subset_of_cons_subset sub, ha, stock⟩
      · exact fun _ w stock => stock.of_subset (List.subset_cons_self n given)
  | ask request next => exact request.elim

/-- Whatever is made on the way, the result is one of those that the rule may come to. -/
theorem Recipe.Draws.answers {rule : Rule K α} {post : List (Node K) → α → Prop}
    (h : rule.Draws names given post) (make : Construction K → Work K (Node K)) :
    Triple (fun _ => True) (Registry.follow make rule) (fun a _ => ∃ now, post now a)
      fun _ _ => True := by
  induction rule generalizing given with
  | done a => exact .value fun _ _ => ⟨given, h⟩
  | refuse e => exact .refuse fun _ _ => trivial
  | make c next ih =>
      refine Triple.bind (m := fun _ _ => True) ?_ fun n => ih n (h.2 n)
      intro w _
      rcases (make c).run.run w with ⟨_ | _, _⟩
      · trivial
      · trivial
  | ask request next => exact request.elim

namespace Registry

/-- There is no condition on the names of operators. -/
abbrev anyName (_ : String) : Prop :=
  True

/-- The `optimize` hooks of the operators of some names draw on the operands and on captured nodes. -/
def Draws (names : String → Prop) (captured : List (Node K)) (r : Registry K) : Prop :=
  ∀ d ∈ r.definitions, names d.signature.name →
    ∀ optimize, d.hooks.optimize = some optimize →
      ∀ operands given, captured ⊆ given → (∀ m ∈ operands, Node.Below given m) →
        (optimize operands).Draws names given fun now n? => ∀ n ∈ n?, Node.Below now n

variable {r : Registry K} {make : Construction K → Work K (Node K)}

theorem buildWith_grows (draws : r.Draws names captured) (grows : Grows names captured make)
    {d : Definition K} (hd : d ∈ r.definitions) (name : names d.signature.name)
    {operands : List (Node K)} (held : captured ⊆ given)
    (below : ∀ m ∈ operands, Node.Below given m) :
    Triple (fun w => Stock names given others w.nextId) (buildWith make d operands)
      (fun n w => Stock names (n :: given) others w.nextId)
      fun _ w => Stock names given others w.nextId := by
  have answered : Triple (fun w => Stock names given others w.nextId) (simplify? make d operands)
      (fun n? w => ∃ now, given ⊆ now ∧ (∀ n ∈ n?, Node.Below now n) ∧
        Stock names now others w.nextId) fun _ w => Stock names given others w.nextId := by
    rw [simplify?]
    cases hook : d.hooks.optimize with
    | none =>
        refine .value fun w stock => ⟨given, List.Subset.refl given, fun n hn => ?_, stock⟩
        exact absurd hn (Option.not_mem_none n)
    | some optimize =>
        exact (draws d hd name optimize hook operands given held below).triple others grows held
  rw [buildWith]
  refine Triple.bind (m := fun _ w => Stock names given others w.nextId)
    (.ofExcept (fun _ _ _ => id) fun _ _ _ => id) fun _ => answered.bind ?_
  intro n? w hw
  rcases hw with ⟨now, sub, hn, stock⟩
  cases n? with
  -- the application is made anew
  | none => exact (stock.of_subset sub).cons_of_fresh rfl below fun s hs => Option.some.inj hs ▸ name
  | some n =>
      -- the answer of the rule lies below what has been drawn on
      rw [settle]
      split
      · exact stock.of_subset sub
      · exact (stock.cons_of_below (hn n rfl)).of_subset (List.cons_subset_cons n sub)

theorem candidate_of_resolve_eq_ok {name : String} {shapes : List Shape} {d : Definition K}
    (found : r.resolve name shapes = .ok d) :
    d ∈ r.definitions ∧ d.signature.name = name ∧ d.signature.operands = shapes := by
  have candidate : d ∈ r.candidates name shapes :=
    resolve_eq_ok_iff.1 found ▸ List.mem_singleton_self d
  rw [candidates, List.mem_filter, Signature.answersTo, Bool.and_eq_true] at candidate
  exact ⟨candidate.1, beq_iff_eq.1 candidate.2.1, beq_iff_eq.1 candidate.2.2⟩

theorem mem_of_resolve_eq_ok {name : String} {shapes : List Shape} {d : Definition K}
    (found : r.resolve name shapes = .ok d) : d ∈ r.definitions ∧ d.signature.name = name :=
  (candidate_of_resolve_eq_ok found).imp_right And.left

theorem mem_of_resolveAs_eq_ok {result : Shape} {name : String} {shapes : List Shape}
    {d : Definition K} (found : r.resolveAs result name shapes = .ok d) :
    d ∈ r.definitions ∧ d.signature.name = name := by
  rw [resolveAs] at found
  split at found
  · rename_i known
    obtain rfl := Except.ok.inj found
    exact ⟨List.mem_of_find?_eq_some known, by rw [signature_of_find? known]⟩
  · exact absurd found nofun

/-- Resolving an operator of a permitted name and building it. -/
theorem buildResolved_grows (draws : r.Draws names captured) (grows : Grows names captured make)
    {name : String} (allowed : names name) {resolved : Except Error (Definition K)}
    (held : captured ⊆ given)
    (known : ∀ d, resolved = .ok d → d ∈ r.definitions ∧ d.signature.name = name)
    {operands : List (Node K)} (below : ∀ m ∈ operands, Node.Below given m) :
    Triple (fun w => Stock names given others w.nextId)
      (Work.ofExcept resolved >>= fun d => buildWith make d operands)
      (fun n w => Stock names (n :: given) others w.nextId)
      fun _ w => Stock names given others w.nextId := by
  refine Triple.bind (m := fun d w => (d ∈ r.definitions ∧ d.signature.name = name) ∧
    Stock names given others w.nextId) (.ofExcept (fun d found w stock => ⟨known d found, stock⟩)
    fun _ _ _ stock => stock) fun d => .assuming fun ⟨hd, same⟩ => ?_
  exact buildWith_grows draws grows hd (same ▸ allowed) held below

theorem makeWith_grows (draws : r.Draws names captured) (grows : Grows names captured make) :
    Grows names captured (r.makeWith make) := by
  intro c given others held h
  cases c with
  | constant v => exact fun w stock => stock.cons_of_fresh rfl (by simp) nofun
  | leaf name s => exact fun w stock => stock.cons_of_fresh rfl (by simp) nofun
  | apply name operands =>
      rcases h with ⟨allowed, below⟩
      exact buildResolved_grows draws grows allowed held (fun _ => mem_of_resolve_eq_ok) below
  | applyFor result name operands =>
      rcases h with ⟨allowed, below⟩
      exact buildResolved_grows draws grows allowed held (fun _ => mem_of_resolveAs_eq_ok) below

theorem makeWithin_grows (draws : r.Draws names captured) (depth : Nat) :
    Grows names captured (r.makeWithin depth) := by
  induction depth with
  | zero => exact fun _ _ _ _ _ => .giveUp fun _ stock => stock
  | succ depth ih => exact makeWith_grows draws ih

theorem make_grows (draws : r.Draws names captured) : Grows names captured r.make :=
  makeWithin_grows draws nestingLimit

end Registry

end SymbolicLinalg
