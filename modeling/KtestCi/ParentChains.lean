import Mathlib.Logic.Relation

/-!
# Chains in a partial graph with one successor

Nodes are looked up by name, and a node may name a successor. From a name there is a finite
chain of nodes, or following the names ends at one that cannot be looked up, or it comes back
to where it was. Chains are unique.
-/

namespace KtestCi
namespace ParentChains

variable {α β : Type*} (node : α → Option β) (next : β → Option α)

/-- One step from a name to the name of its successor. -/
def Link (a c : α) : Prop := ∃ b, node a = some b ∧ next b = some c

/-- The nodes from a name to one without a successor, nearest first. -/
inductive Chain : α → List β → Prop
  | last {a : α} {b : β} (hnode : node a = some b) (hnext : next b = none) : Chain a [b]
  | cons {a c : α} {b : β} {bs : List β} (hnode : node a = some b) (hnext : next b = some c)
      (tail : Chain c bs) : Chain a (b :: bs)

/-- The names reached from `a` include one that cannot be looked up. -/
def Dangles (a : α) : Prop := ∃ c, Relation.ReflTransGen (Link node next) a c ∧ node c = none

/-- The names reached from `a` include one that is reached again. -/
def Revisits (a : α) : Prop :=
  ∃ c, Relation.ReflTransGen (Link node next) a c ∧ Relation.TransGen (Link node next) c c

variable {node next} {a c : α} {b : β} {bs bs' : List β}

theorem Chain.isSome (h : Chain node next a bs) : (node a).isSome = true := by
  cases h with
  | last hnode | cons hnode => simp [hnode]

theorem Chain.unique (h : Chain node next a bs) (h' : Chain node next a bs') : bs = bs' := by
  induction h generalizing bs' with
  | last hnode hnext =>
    cases h' with
    | last hnode' hnext' => rw [Option.some.inj (hnode.symm.trans hnode')]
    | cons hnode' hnext' tail' =>
      rw [Option.some.inj (hnode.symm.trans hnode'), hnext'] at hnext
      simp at hnext
  | cons hnode hnext tail ih =>
    cases h' with
    | last hnode' hnext' =>
      rw [Option.some.inj (hnode.symm.trans hnode'), hnext'] at hnext
      simp at hnext
    | cons hnode' hnext' tail' =>
      obtain rfl := Option.some.inj (hnode.symm.trans hnode')
      obtain rfl := Option.some.inj (hnext.symm.trans hnext')
      rw [ih tail']

theorem Chain.link (h : Chain node next a bs) (hlink : Link node next a c) :
    ∃ bs', Chain node next c bs' ∧ bs.length = bs'.length + 1 := by
  obtain ⟨b, hb, hc⟩ := hlink
  cases h with
  | last hnode hnext =>
    rw [Option.some.inj (hnode.symm.trans hb), hc] at hnext
    simp at hnext
  | cons hnode hnext tail =>
    rw [Option.some.inj (hnode.symm.trans hb), hc] at hnext
    obtain rfl := Option.some.inj hnext
    exact ⟨_, tail, rfl⟩

theorem Chain.reach (h : Chain node next a bs) (hreach : Relation.ReflTransGen (Link node next) a c) :
    ∃ bs', Chain node next c bs' := by
  induction hreach with
  | refl => exact ⟨bs, h⟩
  | tail _ hlink ih =>
    obtain ⟨bs', h'⟩ := ih
    obtain ⟨bs'', h'', -⟩ := h'.link hlink
    exact ⟨bs'', h''⟩

theorem Chain.trans (h : Chain node next a bs) (hreach : Relation.TransGen (Link node next) a c) :
    ∃ bs', Chain node next c bs' ∧ bs'.length < bs.length := by
  induction hreach with
  | single hlink =>
    obtain ⟨bs', h', hlen⟩ := h.link hlink
    exact ⟨bs', h', by omega⟩
  | tail _ hlink ih =>
    obtain ⟨bs', h', hlen⟩ := ih
    obtain ⟨bs'', h'', hlen'⟩ := h'.link hlink
    exact ⟨bs'', h'', by omega⟩

theorem Chain.not_dangles (h : Chain node next a bs) : ¬ Dangles node next a := by
  rintro ⟨c, hreach, hnone⟩
  obtain ⟨bs', h'⟩ := h.reach hreach
  simpa [hnone] using h'.isSome

theorem Chain.not_revisits (h : Chain node next a bs) : ¬ Revisits node next a := by
  rintro ⟨c, hreach, hcycle⟩
  obtain ⟨bs', h'⟩ := h.reach hreach
  obtain ⟨bs'', h'', hlen⟩ := h'.trans hcycle
  rw [h'.unique h''] at hlen
  exact Nat.lt_irrefl _ hlen

theorem Dangles.of_link (hlink : Link node next a c) (h : Dangles node next c) :
    Dangles node next a := by
  obtain ⟨d, hreach, hnone⟩ := h
  exact ⟨d, hreach.head hlink, hnone⟩

theorem Revisits.of_link (hlink : Link node next a c) (h : Revisits node next c) :
    Revisits node next a := by
  obtain ⟨d, hreach, hcycle⟩ := h
  exact ⟨d, hreach.head hlink, hcycle⟩

theorem revisits_of_link (hlink : Link node next a c)
    (hback : Relation.ReflTransGen (Link node next) c a) : Revisits node next a :=
  ⟨a, .refl, Relation.TransGen.head' hlink hback⟩

end ParentChains
end KtestCi
