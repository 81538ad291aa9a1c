import PathQuery.Proofs.Attempts
import PathQuery.Proofs.Pattern.Sharing
import PathQuery.Proofs.Query.Replay

/-! When the triples of a node that is in no optional scope stand outside of all of them. A triple is written
where it is first asked for, so the node that comes first in the order decides. -/
namespace PathQuery

def Pattern.WritesOutside (p : Pattern) (t : Triple) : Prop :=
  ∃ placed, replay [] (p.lines []) = some placed ∧ (t,[]) ∈ placed

namespace SelectPattern

def Requests (p : SelectPattern) (v : String) (t : Triple) : Prop :=
  ∃ e ∈ p.emissions, e.owner = some v ∧ e.triple = t

instance (p : SelectPattern) (v : String) (t : Triple) : Decidable (p.Requests v t) := by
  unfold Requests; infer_instance

def Forestalls (p : SelectPattern) (w v : String) (t : Triple) : Prop :=
  ∃ before after, p.order = before ++ w :: after ∧ v ∈ after ∧ p.Requests w t ∧
    ∀ u ∈ before, ¬ p.Requests u t

end SelectPattern

variable {g : SelectionGraph} {full : Bool} {p : SelectPattern}

theorem writesOutsideIff {p : Pattern} {t : Triple} :
    p.WritesOutside t ↔ p.Awaits [] p.emissions t ∧ p.firstChain p.emissions t = [] := by
  unfold Pattern.WritesOutside
  rw [Pattern.replayLines,← Pattern.memAwaited]
  constructor
  · rintro ⟨placed,played,member⟩
    rw [← Option.some.inj played] at member
    obtain ⟨s,awaited,same⟩ := List.mem_map.mp member
    obtain ⟨rfl,chain⟩ := Prod.mk.inj same
    exact ⟨awaited,chain⟩
  · rintro ⟨awaited,chain⟩
    exact ⟨_,rfl,List.mem_map.mpr ⟨t,awaited,by rw [chain]⟩⟩

theorem firstRequester {blocks : Blocks} (blocked : Blocked g p blocks) {w : String} {before after : List String}
    {t : Triple} (order : p.order = before ++ w :: after) (asks : p.Requests w t)
    (first : ∀ u ∈ before, ¬ p.Requests u t) : p.firstChain p.emissions t = g.plan.chains.findD w [] := by
  have earlier : before.findSome? (fun u => (blocks u).find? fun e => e.triple = t) = none := by
    refine List.findSome?_eq_none_iff.mpr fun u there => List.find?_eq_none.mpr fun e block asked => ?_
    refine first u there ⟨e,?_,blocked.owned u e block,by simpa using asked⟩
    rw [blocked.emissions,order]
    exact List.mem_flatMap.mpr ⟨u,List.mem_append_left _ there,block⟩
  obtain ⟨e,member,owner,same⟩ := asks
  obtain ⟨f,found⟩ : ∃ f, (blocks w).find? (fun e => e.triple = t) = some f :=
    Option.isSome_iff_exists.mp
      (List.find?_isSome.mpr ⟨e,(ownBlock blocked member owner).2,by simpa using same⟩)
  have foundFirst : p.emissions.find? (fun e => e.triple = t) = some f := by
    rw [blocked.emissions,List.find?_flatMap,order,List.findSome?_append,earlier,List.findSome?_cons,found]
    rfl
  rw [Pattern.firstChain,foundFirst]
  simp [Pattern.chainOf,blocked.owned w f (List.mem_of_find?_eq_some found),blocked.chains,Table.findD]

/-- A triple that a node outside all scopes asks for stands outside them just if no node within one asks
for it before, as the first of all. -/
theorem mandatoryOutsideIff (made : g.pattern full = .ok p) {v : String}
    (free : g.plan.chains.findD v [] = []) {t : Triple} (requested : p.Requests v t) :
    p.WritesOutside t ↔ ∀ w, p.Forestalls w v t → g.plan.chains.findD w [] = [] := by
  obtain ⟨blocks,blocked⟩ := patternBlocked made
  have ⟨e,member,owner,same⟩ := requested
  rw [writesOutsideIff]
  constructor
  · rintro ⟨_,outside⟩ w ⟨before,after,order,_,asks,first⟩
    rw [← firstRequester blocked order asks first,outside]
  · intro forestalled
    have inOrder : v ∈ p.order := (ownBlock blocked member owner).1
    obtain ⟨w,found⟩ : ∃ w, p.order.find? (fun u => p.Requests u t) = some w :=
      Option.isSome_iff_exists.mp (List.find?_isSome.mpr ⟨v,inOrder,by simpa using requested⟩)
    obtain ⟨asks,before,after,order,earlier⟩ := List.find?_eq_some_iff_append.mp found
    have asks : p.Requests w t := of_decide_eq_true asks
    have first : ∀ u ∈ before, ¬ p.Requests u t := fun u there => by simpa using earlier u there
    have outside : g.plan.chains.findD w [] = [] := by
      rcases List.mem_append.mp (order ▸ inOrder) with there | there
      · exact absurd requested (first v there)
      · rcases List.mem_cons.mp there with rfl | later
        · exact free
        · exact forestalled w ⟨before,after,order,later,asks,first⟩
    have awaits : p.Awaits [] p.emissions t :=
      ⟨by simp,((patternSourced made).recorded t).mpr ⟨e,member,same⟩,e,member,same⟩
    exact ⟨awaits,(firstRequester blocked order asks first).trans outside⟩

def sharedClass : Triple := typeTriple "m_step_1" "urn:Z"

theorem siblingStepOutside : ∃ p, (siblingFields false).pattern false = .ok p ∧
    (siblingFields false).plan.chains.findD "n" [] = [] ∧ p.Requests "n" sharedClass ∧
    p.WritesOutside sharedClass := by
  have evaluated : ((siblingFields false).pattern false).map (fun p =>
      decide (p.Requests "n" sharedClass ∧
        ∀ w ∈ p.order, (siblingFields false).plan.chains.findD w [] = [])) = .ok true := by decide +kernel
  obtain ⟨p,made,holds⟩ := mapOk evaluated
  obtain ⟨asks,chains⟩ := of_decide_eq_true holds
  have free : (siblingFields false).plan.chains.findD "n" [] = [] := by decide +kernel
  refine ⟨p,made,free,asks,(mandatoryOutsideIff made free asks).mpr ?_⟩
  rintro w ⟨before,after,order,_⟩
  exact chains w (by simp [order])

theorem siblingStepInside : ∃ p, (siblingFields true).pattern false = .ok p ∧
    (siblingFields true).plan.chains.findD "n" [] = [] ∧ p.Requests "n" sharedClass ∧
    ¬ p.WritesOutside sharedClass := by
  have evaluated : ((siblingFields true).pattern false).map (fun p =>
      decide (p.Requests "n" sharedClass ∧ p.firstChain p.emissions sharedClass ≠ [])) = .ok true := by
    decide +kernel
  obtain ⟨p,made,holds⟩ := mapOk evaluated
  obtain ⟨asks,inside⟩ := of_decide_eq_true holds
  exact ⟨p,made,by decide +kernel,asks,fun outside => inside (writesOutsideIff.mp outside).2⟩

end PathQuery
