import ParseKit.Proofs.Automaton.Drafting
import ParseKit.Proofs.Automaton.Sketch

/-!
# Drafts realize their sketches

A draft `Realizes` the sketch of its program: a unit leads on from a named state as its character
does, and the surrogates of a pair lead on through a hidden state that belongs to one state and
one lead. Every call keeps this, and the decoded automaton finds the longest matches of the sketch:
`Drafting.decode_matches_sketch`.
-/

namespace ParseKit

structure Sketch.Closed (k : Sketch) : Prop where
  initial : Draft.initial ∈ k.names
  ends : ∀ e ∈ k.edges, e.source ∈ k.names ∧ e.target ∈ k.names
  marked : ∀ t ∈ k.terminals, t.1 ∈ k.names

namespace Sketch

variable {k : Sketch} {n q : UInt16} {c : Char}

theorem closed_addEdge (closed : k.Closed) (source : n ∈ k.names) (target : q ∈ k.names) :
    (k.addEdge ⟨n, c, q⟩).Closed := by
  refine ⟨closed.initial, ?_, closed.marked⟩
  intro e member
  rcases List.mem_cons.mp member with rfl | old
  · exact ⟨source, target⟩
  · exact closed.ends e old

theorem closed_addState {terminal : Option UInt16} (closed : k.Closed) :
    (k.addState n terminal).Closed := by
  refine ⟨List.mem_cons_of_mem _ closed.initial, ?_, ?_⟩
  · intro e member
    obtain ⟨source, target⟩ := closed.ends e member
    exact ⟨List.mem_cons_of_mem _ source, List.mem_cons_of_mem _ target⟩
  · intro t member
    rcases List.mem_append.mp member with mark | old
    · obtain ⟨_, -, rfl⟩ := List.mem_map.mp mark
      exact List.mem_cons_self
    · exact List.mem_cons_of_mem _ (closed.marked t old)

theorem closed_setTerminal {terminal : UInt16} (closed : k.Closed) (name : n ∈ k.names) :
    (k.setTerminal n terminal).Closed := by
  refine ⟨closed.initial, closed.ends, ?_⟩
  intro t member
  rcases List.mem_cons.mp member with rfl | old
  · exact name
  · exact closed.marked t old

section

variable (closed : k.Closed) (new : n ∉ k.names)
include closed new

theorem step?_of_new (c : Char) : k.step? n c = none := by
  apply step?_eq_none_iff.mpr
  intro member
  obtain ⟨e, inside, key⟩ := List.mem_map.mp member
  exact new ((Prod.mk.inj key).1 ▸ (closed.ends e inside).1)

theorem not_led_of_new (lead : UInt16) : (n, lead) ∉ k.leads := by
  intro member
  obtain ⟨e, inside, led⟩ := List.mem_filterMap.mp member
  exact new (source_of_lead? led ▸ (closed.ends e inside).1)

end

end Sketch

/-- `middle` is the hidden state behind a lead surrogate. -/
structure Draft.Hides (d : Draft) (k : Sketch) (n lead middle : UInt16) : Prop where
  name : n ∈ k.names
  is_lead : IsLead lead
  next : d.next? n lead = some middle

/-- The draft has the states, the terminals and the transitions of the sketch. -/
structure Draft.Realizes (d : Draft) (k : Sketch) : Prop where
  regular : d.Regular
  closed : k.Closed
  known : ∀ n ∈ k.names, n.toNat < d.stateCount
  terminal : ∀ n ∈ k.names, (d.state n).terminal? = k.terminal? n
  single : ∀ n ∈ k.names, ∀ c unit, Units.ofChar c = .single unit → d.next? n unit = k.step? n c
  pair : ∀ n ∈ k.names, ∀ c lead trail, Units.ofChar c = .pair lead trail →
    ((d.next? n lead).bind fun middle => d.next? middle trail) = k.step? n c
  /-- Hidden states have no name. -/
  unnamed : ∀ n lead middle, d.Hides k n lead middle → middle ∉ k.names
  /-- A hidden state belongs to one state and one lead surrogate. -/
  apart : ∀ n n' lead lead' middle, d.Hides k n lead middle → d.Hides k n' lead' middle →
    n = n' ∧ lead = lead'
  led : ∀ n ∈ k.names, ∀ lead, IsLead lead →
    ((n, lead) ∈ k.leads ↔ ∃ middle, d.next? n lead = some middle)
  count : d.stateCount = k.names.length + k.leads.dedup.length

namespace Draft

variable {d d' : Draft} {k : Sketch} {n q : UInt16} {c : Char}

theorem realizes_empty : empty.Realizes .initial := by
  have state : empty.state initial = .fresh none := rfl
  have next (unit : UInt16) : empty.next? initial unit = none := DraftState.next?_fresh none unit
  have only {m : UInt16} (name : m ∈ Sketch.initial.names) : m = initial := List.mem_singleton.mp name
  refine ⟨regular_empty, ⟨List.mem_singleton_self _, fun _ member => (nomatch member),
    fun _ member => (nomatch member)⟩, ?known, ?terminal, ?single, ?pair, ?unnamed, ?apart, ?led, rfl⟩
  case known =>
    intro m name
    rw [only name]
    decide
  case terminal =>
    intro m name
    rw [only name]
    rfl
  case single =>
    intro m name c unit _
    rw [only name, next]
    rfl
  case pair =>
    intro m name c lead trail _
    rw [only name, next]
    rfl
  case unnamed =>
    intro m lead middle hides
    have blocked := hides.next
    rw [only hides.name, next] at blocked
    exact nomatch blocked
  case apart =>
    intro m m' lead lead' middle hides _
    have blocked := hides.next
    rw [only hides.name, next] at blocked
    exact nomatch blocked
  case led =>
    intro m name lead _
    rw [only name, next]
    exact ⟨fun member => (nomatch member), fun ⟨_, found⟩ => (nomatch found)⟩

/-! ### One transition -/

theorem realizes_single (h : d.Realizes k) {unit : UInt16} (source : n ∈ k.names)
    (target : q ∈ k.names) (units : Units.ofChar c = .single unit)
    (puts : d.Puts d' n unit q) : d'.Realizes (k.addEdge ⟨n, c, q⟩) := by
  obtain ⟨-, not_lead, not_trail⟩ := Units.of_single units
  have next_lead (m : UInt16) {lead : UInt16} (is_lead : IsLead lead) :
      d'.next? m lead = d.next? m lead := by
    rw [puts.next, if_neg]
    rintro ⟨-, rfl⟩
    exact not_lead is_lead
  have hides {m lead middle : UInt16} :
      d'.Hides (k.addEdge ⟨n, c, q⟩) m lead middle ↔ d.Hides k m lead middle :=
    ⟨fun ⟨name, is_lead, next⟩ => ⟨name, is_lead, next_lead m is_lead ▸ next⟩,
      fun ⟨name, is_lead, next⟩ => ⟨name, is_lead, (next_lead m is_lead).trans next⟩⟩
  have leads : (k.addEdge ⟨n, c, q⟩).leads = k.leads := by
    have none : Edge.lead? ⟨n, c, q⟩ = none := by rw [Edge.lead?, units]
    exact List.filterMap_cons_none none
  refine ⟨puts.regular, Sketch.closed_addEdge h.closed source target, ?known, ?terminal, ?single,
    ?pair, ?unnamed, ?apart, ?led, ?count⟩
  case known =>
    intro m name
    rw [puts.stateCount]
    exact h.known m name
  case terminal =>
    intro m name
    rw [puts.terminal]
    exact h.terminal m name
  case single =>
    intro m name c' unit' units'
    rw [puts.next, Sketch.step?_addEdge, h.single m name c' unit' units']
    have same : unit' = unit ↔ c' = c := by
      refine ⟨fun same => Units.ofChar_injective ?_, ?_⟩
      · rw [units', units, same]
      · intro same
        rw [same, units] at units'
        exact (Units.single.inj units').symm
    simp only [same, Edge.key, Prod.mk.injEq]
  case pair =>
    intro m name c' lead trail units'
    obtain ⟨is_lead, is_trail, -⟩ := Units.of_pair units'
    rw [next_lead m is_lead, Sketch.step?_addEdge, if_neg, ← h.pair m name c' lead trail units']
    · congr 1
      funext middle
      rw [puts.next, if_neg]
      rintro ⟨-, rfl⟩
      exact not_trail is_trail
    · intro same
      rw [(Prod.mk.inj same).2, units] at units'
      contradiction
  case unnamed =>
    intro m lead middle behind
    exact h.unnamed m lead middle (hides.mp behind)
  case apart =>
    intro m m' lead lead' middle behind behind'
    exact h.apart m m' lead lead' middle (hides.mp behind) (hides.mp behind')
  case led =>
    intro m name lead is_lead
    rw [leads, next_lead m is_lead]
    exact h.led m name lead is_lead
  case count =>
    rw [leads, puts.stateCount]
    exact h.count

/-- `d'` is `d` with a pair drawn through `middle`, which was hidden behind the lead or is new. -/
structure Routes (d d' : Draft) (k : Sketch) (n lead trail middle q : UInt16) : Prop where
  unnamed : middle ∉ k.names
  own : ∀ m l, d.Hides k m l middle → m = n ∧ l = lead
  before : d.next? n lead = some middle ∨
    d.next? n lead = none ∧ ∀ unit, d.next? middle unit = none
  next : ∀ m unit, d'.next? m unit = if m = middle ∧ unit = trail then some q
    else if m = n ∧ unit = lead then some middle else d.next? m unit

section

variable {lead trail middle : UInt16} (routes : d.Routes d' k n lead trail middle q)
include routes

theorem Routes.next_named {m : UInt16} (name : m ∈ k.names) (unit : UInt16) :
    d'.next? m unit = if m = n ∧ unit = lead then some middle else d.next? m unit := by
  rw [routes.next, if_neg]
  rintro ⟨rfl, -⟩
  exact routes.unnamed name

/-- A hidden state is the one drawn through, or was hidden before and elsewhere. -/
theorem Routes.hides {m l μ : UInt16} (behind : d'.Hides (k.addEdge ⟨n, c, q⟩) m l μ) :
    (m = n ∧ l = lead) ∧ μ = middle ∨ ¬ (m = n ∧ l = lead) ∧ d.Hides k m l μ := by
  obtain ⟨name, is_lead, found⟩ := behind
  rw [routes.next_named name] at found
  split at found
  · next here => exact .inl ⟨here, (Option.some.inj found).symm⟩
  · next elsewhere => exact .inr ⟨elsewhere, name, is_lead, found⟩

variable (h : d.Realizes k) (source : n ∈ k.names) (units : Units.ofChar c = .pair lead trail)
include h source units

/-- Pairs with another lead or from another state keep their steps; behind the same lead, only the
trail drawn gets a new one. -/
theorem Routes.pair {m : UInt16} (name : m ∈ k.names) {c' : Char} {lead' trail' : UInt16}
    (units' : Units.ofChar c' = .pair lead' trail') :
    ((d'.next? m lead').bind fun μ => d'.next? μ trail') = (k.addEdge ⟨n, c, q⟩).step? m c' := by
  obtain ⟨is_lead, -, -⟩ := Units.of_pair units'
  rw [routes.next_named name, Sketch.step?_addEdge]
  by_cases here : m = n ∧ lead' = lead
  · obtain ⟨rfl, rfl⟩ := here
    have old : d.next? middle trail' = k.step? m c' := by
      rw [← h.pair m name c' lead' trail' units']
      rcases routes.before with shared | ⟨absent, fresh⟩
      · rw [shared, Option.bind_some]
      · rw [absent, fresh, Option.bind_none]
    have same : trail' = trail ↔ c' = c := by
      constructor
      · rintro rfl
        exact Units.ofChar_injective (units'.trans units.symm)
      · rintro rfl
        exact (Units.pair.inj (units'.symm.trans units)).2
    have apart : middle ≠ m := fun same => routes.unnamed (same ▸ name)
    rw [if_pos ⟨rfl, rfl⟩, Option.bind_some, routes.next, old]
    simp [same, apart, Edge.key]
  · have other : (m, c') ≠ Edge.key ⟨n, c, q⟩ := by
      intro same
      obtain ⟨rfl, rfl⟩ := Prod.mk.inj same
      exact here ⟨rfl, (Units.pair.inj (units'.symm.trans units)).1⟩
    rw [if_neg here, if_neg other, ← h.pair m name c' lead' trail' units']
    apply Option.bind_congr
    intro μ found
    have behind : d.Hides k m lead' μ := ⟨name, is_lead, found⟩
    rw [routes.next, if_neg, if_neg]
    · rintro ⟨rfl, -⟩
      exact h.unnamed m lead' μ behind source
    · rintro ⟨rfl, -⟩
      exact here (routes.own m lead' behind)

theorem realizes_pair (target : q ∈ k.names) (regular : d'.Regular)
    (grown : d.stateCount ≤ d'.stateCount)
    (terminal : ∀ m ∈ k.names, (d'.state m).terminal? = (d.state m).terminal?)
    (count : d'.stateCount = k.names.length + ((n, lead) :: k.leads).dedup.length) :
    d'.Realizes (k.addEdge ⟨n, c, q⟩) := by
  obtain ⟨is_lead, -, -⟩ := Units.of_pair units
  have leads : (k.addEdge ⟨n, c, q⟩).leads = (n, lead) :: k.leads := by
    have some : Edge.lead? ⟨n, c, q⟩ = some (n, lead) := by rw [Edge.lead?, units]
    exact List.filterMap_cons_some some
  refine ⟨regular, Sketch.closed_addEdge h.closed source target, ?known, ?terminal, ?single, ?pair,
    ?unnamed, ?apart, ?led, ?count⟩
  case known =>
    intro m name
    exact Nat.lt_of_lt_of_le (h.known m name) grown
  case terminal =>
    intro m name
    exact (terminal m name).trans (h.terminal m name)
  case single =>
    intro m name c' unit units'
    rw [routes.next_named name, if_neg, Sketch.step?_addEdge, if_neg,
      h.single m name c' unit units']
    · intro same
      rw [(Prod.mk.inj same).2, units] at units'
      contradiction
    · rintro ⟨-, rfl⟩
      exact (Units.of_single units').2.1 is_lead
  case pair =>
    intro m name c' lead' trail' units'
    exact routes.pair h source units name units'
  case unnamed =>
    intro m l μ behind
    rcases routes.hides behind with ⟨-, rfl⟩ | ⟨-, old⟩
    · exact routes.unnamed
    · exact h.unnamed m l μ old
  case apart =>
    intro m m' l l' μ behind behind'
    rcases routes.hides behind with ⟨⟨rfl, rfl⟩, rfl⟩ | ⟨elsewhere, old⟩
    · rcases routes.hides behind' with ⟨⟨rfl, rfl⟩, -⟩ | ⟨elsewhere, old⟩
      · exact ⟨rfl, rfl⟩
      · exact absurd (routes.own m' l' old) elsewhere
    · rcases routes.hides behind' with ⟨-, rfl⟩ | ⟨-, old'⟩
      · exact absurd (routes.own m l old) elsewhere
      · exact h.apart m m' l l' μ old old'
  case led =>
    intro m name l is_lead'
    rw [leads, List.mem_cons, routes.next_named name]
    by_cases here : m = n ∧ l = lead
    · obtain ⟨rfl, rfl⟩ := here
      rw [if_pos ⟨rfl, rfl⟩]
      exact ⟨fun _ => ⟨middle, rfl⟩, fun _ => .inl rfl⟩
    · rw [if_neg here, ← h.led m name l is_lead']
      exact or_iff_right fun same => here (Prod.mk.inj same)
  case count =>
    rw [leads]
    exact count

end

/-- A pair behind whose lead there is a hidden state is drawn through that state. -/
theorem realizes_pair_shared (h : d.Realizes k) {lead trail middle : UInt16} (source : n ∈ k.names)
    (target : q ∈ k.names) (units : Units.ofChar c = .pair lead trail)
    (free : k.step? n c = none) (found : d.next? n lead = some middle)
    (done : d.put middle trail q = .ok d') : d'.Realizes (k.addEdge ⟨n, c, q⟩) := by
  obtain ⟨is_lead, -, -⟩ := Units.of_pair units
  have behind : d.Hides k n lead middle := ⟨source, is_lead, found⟩
  have unread : d.next? middle trail = none := by
    have steps := (h.pair n source c lead trail units).trans free
    rwa [found, Option.bind_some] at steps
  have puts := put_ok h.regular (h.known q target) (.inr unread) done
  have routes : d.Routes d' k n lead trail middle q := by
    refine ⟨h.unnamed n lead middle behind, ?_, .inl found, ?_⟩
    · intro m l other
      exact h.apart m n l lead middle other behind
    · intro m unit
      rw [puts.next]
      congr 1
      split
      · next here => rw [here.1, here.2, found]
      · rfl
  have member : (n, lead) ∈ k.leads := (h.led n source lead is_lead).mpr ⟨middle, found⟩
  apply realizes_pair routes h source units target puts.regular (Nat.le_of_eq puts.stateCount.symm)
  · intro m _
    exact puts.terminal m
  · rw [puts.stateCount, h.count, List.dedup_cons_of_mem member]

/-- A pair with the first character behind its lead is drawn through a new state. -/
theorem realizes_pair_new (h : d.Realizes k) {d₁ d₂ : Draft} {lead trail middle : UInt16}
    (source : n ∈ k.names) (target : q ∈ k.names) (units : Units.ofChar c = .pair lead trail)
    (absent : d.next? n lead = none) (added : d.addState none = .ok (middle, d₁))
    (led : d₁.put n lead middle = .ok d₂) (done : d₂.put middle trail q = .ok d') :
    d'.Realizes (k.addEdge ⟨n, c, q⟩) := by
  obtain ⟨is_lead, -, -⟩ := Units.of_pair units
  have known := h.known q target
  obtain ⟨number, count, regular, state⟩ := addState_ok h.regular added
  obtain ⟨fresh, kept⟩ := next?_addState added
  have unnamed : middle ∉ k.names := by
    intro name
    exact Nat.lt_irrefl _ (Nat.lt_of_lt_of_eq (h.known middle name) number.symm)
  have leading := put_ok regular (by omega) (.inr ((kept n lead).trans absent)) led
  have unread : d₂.next? middle trail = none := by
    rw [leading.next, if_neg, kept, fresh]
    rintro ⟨rfl, -⟩
    exact unnamed source
  have puts := put_ok leading.regular (by rw [leading.stateCount]; omega) (.inr unread) done
  have routes : d.Routes d' k n lead trail middle q := by
    refine ⟨unnamed, ?_, .inr ⟨absent, fresh⟩, ?_⟩
    · intro m l other
      exact absurd (known_of_next? (sound_of_regular h.regular) other.next) (by omega)
    · intro m unit
      rw [puts.next, leading.next, kept]
  have absent_lead : (n, lead) ∉ k.leads := by
    intro member
    obtain ⟨_, found⟩ := (h.led n source lead is_lead).mp member
    rw [absent] at found
    contradiction
  have stateCount : d'.stateCount = d.stateCount + 1 := by
    rw [puts.stateCount, leading.stateCount, count]
  apply realizes_pair routes h source units target puts.regular (by omega)
  · intro m name
    rw [puts.terminal, leading.terminal, state, if_neg]
    rintro rfl
    exact unnamed name
  · rw [stateCount, h.count, List.dedup_cons_of_notMem absent_lead, List.length_cons]
    omega

theorem realizes_onChar (h : d.Realizes k) (source : n ∈ k.names) (target : q ∈ k.names)
    (free : k.step? n c = none) (done : d.onChar n c q = .ok d') :
    d'.Realizes (k.addEdge ⟨n, c, q⟩) := by
  cases units : Units.ofChar c with
  | single unit =>
    rw [onChar_single units] at done
    have unread : d.next? n unit = none := (h.single n source c unit units).trans free
    have puts := put_ok h.regular (h.known q target) (.inr unread) done
    exact realizes_single h source target units puts
  | pair lead trail =>
    rcases onChar_pair_ok h.regular units done with
      ⟨middle, found, done⟩ | ⟨absent, middle, d₁, d₂, added, led, done⟩
    · exact realizes_pair_shared h source target units free found done
    · exact realizes_pair_new h source target units absent added led done

/-! ### Calls -/

theorem realizes_addState {terminal : Option UInt16} (h : d.Realizes k)
    (done : d.addState terminal = .ok (n, d')) : d'.Realizes (k.addState n terminal) := by
  obtain ⟨number, count, regular, state⟩ := addState_ok h.regular done
  obtain ⟨fresh, kept⟩ := next?_addState done
  have new : n ∉ k.names := by
    intro name
    exact Nat.lt_irrefl _ (Nat.lt_of_lt_of_eq (h.known n name) number.symm)
  have stuck := Sketch.step?_of_new h.closed new
  have hides {m lead middle : UInt16} (behind : d'.Hides (k.addState n terminal) m lead middle) :
      d.Hides k m lead middle := by
    obtain ⟨name, is_lead, found⟩ := behind
    rw [kept] at found
    rcases List.mem_cons.mp name with rfl | old
    · rw [fresh] at found
      contradiction
    · exact ⟨old, is_lead, found⟩
  refine ⟨regular, Sketch.closed_addState h.closed, ?known, ?terminal, ?single, ?pair, ?unnamed,
    ?apart, ?led, ?count⟩
  case known =>
    intro m name
    rcases List.mem_cons.mp name with rfl | old
    · omega
    · exact Nat.lt_of_lt_of_le (h.known m old) (by omega)
  case terminal =>
    intro m name
    have unmarked : ∀ t ∈ k.terminals, t.1 ≠ n := by
      rintro t member rfl
      exact new (h.closed.marked t member)
    rw [state, Sketch.terminal?_addState unmarked]
    split
    · exact DraftState.terminal?_fresh terminal
    · next other => exact h.terminal m ((List.mem_cons.mp name).resolve_left other)
  case single =>
    intro m name c unit units
    rw [kept]
    rcases List.mem_cons.mp name with rfl | old
    · rw [fresh]
      exact (stuck c).symm
    · exact h.single m old c unit units
  case pair =>
    intro m name c lead trail units
    simp only [kept]
    rcases List.mem_cons.mp name with rfl | old
    · rw [fresh]
      exact (stuck c).symm
    · exact h.pair m old c lead trail units
  case unnamed =>
    intro m lead middle behind name
    rcases List.mem_cons.mp name with rfl | old
    · exact absurd (known_of_next? (sound_of_regular h.regular) (hides behind).next) (by omega)
    · exact h.unnamed m lead middle (hides behind) old
  case apart =>
    intro m m' lead lead' middle behind behind'
    exact h.apart m m' lead lead' middle (hides behind) (hides behind')
  case led =>
    intro m name lead is_lead
    rw [kept]
    rcases List.mem_cons.mp name with rfl | old
    · rw [fresh]
      exact iff_of_false (Sketch.not_led_of_new h.closed new lead) fun ⟨_, found⟩ => (nomatch found)
    · exact h.led m old lead is_lead
  case count =>
    rw [count, h.count]
    change _ = (n :: k.names).length + k.leads.dedup.length
    rw [List.length_cons]
    omega

theorem realizes_setTerminal {terminal : UInt16} (h : d.Realizes k) (name : n ∈ k.names)
    (done : d.setTerminal n terminal = .ok d') : d'.Realizes (k.setTerminal n terminal) := by
  obtain ⟨regular, count, next, terminal_eq⟩ := setTerminal_ok h.regular done
  have hides {m lead middle : UInt16} (behind : d'.Hides (k.setTerminal n terminal) m lead middle) :
      d.Hides k m lead middle :=
    ⟨behind.name, behind.is_lead, (next m lead).symm.trans behind.next⟩
  refine ⟨regular, Sketch.closed_setTerminal h.closed name, ?known, ?terminal, ?single, ?pair,
    ?unnamed, ?apart, ?led, ?count⟩
  case known =>
    intro m known
    rw [count]
    exact h.known m known
  case terminal =>
    intro m known
    rw [terminal_eq, Sketch.terminal?_setTerminal, h.terminal m known]
  case single =>
    intro m known c unit units
    rw [next]
    exact h.single m known c unit units
  case pair =>
    intro m known c lead trail units
    simp only [next]
    exact h.pair m known c lead trail units
  case unnamed =>
    intro m lead middle behind
    exact h.unnamed m lead middle (hides behind)
  case apart =>
    intro m m' lead lead' middle behind behind'
    exact h.apart m m' lead lead' middle (hides behind) (hides behind')
  case led =>
    intro m known lead is_lead
    rw [next]
    exact h.led m known lead is_lead
  case count =>
    rw [count]
    exact h.count

end Draft

/-! ### Programs -/

namespace Draft

variable {d d' : Draft} {k : Sketch}

def draw (d : Draft) (edges : List Edge) : Except Violation Draft :=
  edges.foldlM (fun d e => d.onChar e.source e.char e.target) d

theorem realizes_draw {edges : List Edge} (h : d.Realizes k)
    (ends : ∀ e ∈ edges, e.source ∈ k.names ∧ e.target ∈ k.names)
    (once : ((edges ++ k.edges).map Edge.key).Nodup) (done : d.draw edges = .ok d') :
    d'.Realizes (k.addEdges edges) := by
  induction edges generalizing d k with
  | nil =>
    obtain rfl := pure_eq_ok.mp done
    exact h
  | cons e rest ih =>
    obtain ⟨d₁, first, done⟩ := bind_eq_ok.mp done
    obtain ⟨source, target⟩ := ends e List.mem_cons_self
    rw [List.cons_append, List.map_cons, List.nodup_cons] at once
    have free : k.step? e.source e.char = none := by
      refine Sketch.step?_eq_none_iff.mpr fun member => once.1 ?_
      rw [List.map_append]
      exact List.mem_append_right _ member
    refine ih (realizes_onChar h source target free first)
      (fun e' member => ends e' (List.mem_cons_of_mem _ member)) ?_ done
    change ((rest ++ e :: k.edges).map Edge.key).Nodup
    rw [List.map_append, List.map_cons, List.nodup_middle, ← List.map_append]
    exact List.nodup_cons.mpr once

theorem draw_single (d : Draft) (e : Edge) : d.draw [e] = d.onChar e.source e.char e.target := by
  rw [draw, List.foldlM_cons]
  exact bind_pure _

theorem onByte_eq_onChar (d : Draft) (source : UInt16) (value : UInt8) (target : UInt16) :
    d.onByte source value target = d.onChar source (Char.ofUInt8 value) target := by
  rw [onByte_eq, onChar_single (Units.ofChar_ofUInt8 value)]

theorem onBytes_eq_draw (d : Draft) (source : UInt16) (values : List UInt8) (target : UInt16) :
    d.onBytes source values target = d.draw (DraftCall.onBytes source values target).edges := by
  rw [onBytes, draw, DraftCall.edges, List.foldlM_map]
  simp only [onByte_eq_onChar]

end Draft

namespace Drafting

variable {p q : Drafting} {c : DraftCall} {calls : List DraftCall}

theorem call_sketch (done : p.call c = .ok q) :
    q.sketch.edges = c.edges.reverse ++ p.sketch.edges ∧
      q.sketch.names.length = p.sketch.names.length + if c.addsState then 1 else 0 := by
  cases c with
  | addState terminal =>
    obtain ⟨_, _, rfl⟩ := map_eq_ok.mp done
    exact ⟨rfl, rfl⟩
  | setTerminal state terminal =>
    obtain ⟨_, _, rfl⟩ := map_eq_ok.mp done
    exact ⟨rfl, rfl⟩
  | onByte source value target =>
    obtain ⟨_, _, rfl⟩ := map_eq_ok.mp done
    exact ⟨rfl, rfl⟩
  | onBytes source values target =>
    obtain ⟨_, _, rfl⟩ := map_eq_ok.mp done
    exact ⟨Sketch.edges_addEdges _ _, congrArg List.length (Sketch.names_addEdges _ _)⟩
  | onChar source char target =>
    obtain ⟨_, _, rfl⟩ := map_eq_ok.mp done
    exact ⟨rfl, rfl⟩

theorem realizes_call (h : p.draft.Realizes p.sketch) (known : ∀ n ∈ c.states, n ∈ p.sketch.names)
    (once : ((c.edges ++ p.sketch.edges).map Edge.key).Nodup) (done : p.call c = .ok q) :
    q.draft.Realizes q.sketch := by
  have ends : ∀ e ∈ c.edges, e.source ∈ p.sketch.names ∧ e.target ∈ p.sketch.names := by
    intro e member
    obtain ⟨source, target⟩ := DraftCall.ends_mem_states member
    exact ⟨known _ source, known _ target⟩
  cases c with
  | addState terminal =>
    obtain ⟨_, added, rfl⟩ := map_eq_ok.mp done
    exact Draft.realizes_addState h added
  | setTerminal state terminal =>
    obtain ⟨_, set, rfl⟩ := map_eq_ok.mp done
    exact Draft.realizes_setTerminal h (known state List.mem_cons_self) set
  | onByte source value target =>
    obtain ⟨_, drawn, rfl⟩ := map_eq_ok.mp done
    rw [Draft.onByte_eq_onChar] at drawn
    exact Draft.realizes_draw h ends once ((Draft.draw_single _ _).trans drawn)
  | onBytes source values target =>
    obtain ⟨_, drawn, rfl⟩ := map_eq_ok.mp done
    rw [Draft.onBytes_eq_draw] at drawn
    exact Draft.realizes_draw h ends once drawn
  | onChar source char target =>
    obtain ⟨_, drawn, rfl⟩ := map_eq_ok.mp done
    exact Draft.realizes_draw h ends once ((Draft.draw_single _ _).trans drawn)

theorem run_sketch (done : p.run calls = .ok q) :
    q.sketch.edges = (calls.flatMap DraftCall.edges).reverse ++ p.sketch.edges ∧
      q.sketch.names.length = p.sketch.names.length + calls.countP DraftCall.addsState := by
  induction calls generalizing p with
  | nil =>
    obtain rfl := pure_eq_ok.mp done
    exact ⟨rfl, rfl⟩
  | cons c rest ih =>
    obtain ⟨p₁, first, done⟩ := bind_eq_ok.mp done
    obtain ⟨edges, names⟩ := call_sketch first
    obtain ⟨edges', names'⟩ := ih done
    constructor
    · rw [edges', edges, List.flatMap_cons, List.reverse_append, List.append_assoc]
    · rw [names', names, List.countP_cons]
      omega

theorem realizes_run (h : p.draft.Realizes p.sketch) (scope : p.InScope calls)
    (once : ((calls.flatMap DraftCall.edges ++ p.sketch.edges).map Edge.key).Nodup)
    (done : p.run calls = .ok q) : q.draft.Realizes q.sketch := by
  induction calls generalizing p with
  | nil =>
    obtain rfl := pure_eq_ok.mp done
    exact h
  | cons c rest ih =>
    obtain ⟨p₁, first, done⟩ := bind_eq_ok.mp done
    obtain ⟨known, scope⟩ := scope
    -- The call's transitions go over into the sketch, so together they stay the same up to order.
    rw [List.flatMap_cons, List.append_assoc] at once
    have once_call : ((c.edges ++ p.sketch.edges).map Edge.key).Nodup :=
      once.sublist ((List.Sublist.append_left (List.sublist_append_right _ _) _).map _)
    have once_rest : ((rest.flatMap DraftCall.edges ++ p₁.sketch.edges).map Edge.key).Nodup := by
      have moved : (c.edges ++ (rest.flatMap DraftCall.edges ++ p.sketch.edges)).Perm
          (rest.flatMap DraftCall.edges ++ (c.edges.reverse ++ p.sketch.edges)) :=
        (List.perm_append_comm_assoc _ _ _).trans
          (((List.reverse_perm _).symm.append_right _).append_left _)
      rw [(call_sketch first).1]
      exact ((moved.map _).nodup_iff).mp once
    exact ih (realizes_call h known once_call first) (scope p₁ first) once_rest done

end Drafting

/-! ### The decoded automaton -/

namespace Draft

variable {d : Draft} {k : Sketch} {a : Automaton} {n : UInt16} {s : a.State}

theorem Realizes.step?_eq (h : d.Realizes k) (name : n ∈ k.names) (c : Char) :
    d.step? n c = k.step? n c := by
  cases units : Units.ofChar c with
  | single unit => exact (step?_single units).trans (h.single n name c unit units)
  | pair lead trail => exact (step?_pair units).trans (h.pair n name c lead trail units)

section

variable (h : d.Realizes k) (same : a.table = d.table)
  (small : d.table.cells.size < UInt32.size)
include h same small

theorem decoded_recognized? (name : n ∈ k.names) (place : s.val = n.toNat) (run : List Char) :
    a.recognized? s run = k.recognized? n run := by
  induction run generalizing n s with
  | nil =>
    have holds := decoded_holds same small place
    rw [Automaton.recognized?_nil, Automaton.terminal?_eq holds, h.terminal n name]
    rfl
  | cons c rest ih =>
    have few (m : UInt16) := DraftState.few_of_plain (h.regular.plain m)
    have step := decoded_step? same small place few (sound_of_regular h.regular) c
    rw [h.step?_eq name] at step
    cases next : k.step? n c with
    | none =>
      rw [next] at step
      rw [Automaton.recognized?_stuck (.inr step), Sketch.recognized?, Sketch.walk?, next]
      rfl
    | some q =>
      have target : q ∈ k.names := (h.closed.ends _ (Sketch.mem_edges_of_step? next)).2
      obtain ⟨s', there, place'⟩ := decoded_state? same (h.known q target)
      rw [next, Option.bind_some, there] at step
      -- The mark of a dead end never hides a step: only states without transitions have it.
      have alive : a.isDeadEnd s = false := by
        cases dead : a.isDeadEnd s with
        | false => rfl
        | true =>
          rw [Automaton.isDeadEnd_eq (decoded_holds same small place)] at dead
          rw [← h.step?_eq name, step?_of_isDeadEnd dead] at next
          contradiction
      rw [Automaton.recognized?_cons alive step, ih target place', Sketch.recognized?,
        Sketch.recognized?, Sketch.walk?, next, Option.bind_some]

end

end Draft

/-! ### Programs and their automata -/

namespace Drafting

variable {calls : List DraftCall} {p : Drafting}

/-- The bytes of a program's draft are accepted. There is one hidden state for each state and lead
surrogate, and the matches are the longest matches of the automaton over characters. -/
theorem decode_matches_sketch (done : initial.run calls = .ok p) (scope : initial.InScope calls)
    (once : ((calls.flatMap DraftCall.edges).map Edge.key).Nodup)
    (small : p.draft.table.cells.size < UInt32.size) :
    ∃ a, Automaton.decode p.draft.toBytes = .ok a ∧
      a.stateCount = 1 + calls.countP DraftCall.addsState +
        ((calls.flatMap DraftCall.edges).filterMap Edge.lead?).dedup.length ∧
      ∀ (input : List Char) (start : Nat),
        (∀ m, a.longestMatch? (input.drop start) = some m ↔
          Longest (p.sketch.recognized? Draft.initial) (input.drop start) m) ∧
        (a.longestMatch? (input.drop start) = none ↔
          Unmatched (p.sketch.recognized? Draft.initial) (input.drop start)) := by
  have h : p.draft.Realizes p.sketch := by
    refine realizes_run Draft.realizes_empty scope ?_ done
    rwa [show initial.sketch.edges = [] from rfl, List.append_nil]
  obtain ⟨edges, names⟩ := run_sketch done
  obtain ⟨a, decoded, same⟩ := Draft.decode_toBytes (Draft.sound_of_regular h.regular) small
  refine ⟨a, decoded, ?_, ?_⟩
  · have leads : p.sketch.leads.dedup.length =
        ((calls.flatMap DraftCall.edges).filterMap Edge.lead?).dedup.length := by
      rw [Sketch.leads, edges, show initial.sketch.edges = [] from rfl, List.append_nil,
        List.filterMap_reverse]
      exact (List.reverse_perm _).dedup.length_eq
    rw [Draft.stateCount_decoded same, h.count, names, leads]
    rfl
  · intro input start
    have recognized : a.recognized? a.initial = p.sketch.recognized? Draft.initial :=
      funext (Draft.decoded_recognized? h same small h.closed.initial rfl)
    rw [← recognized]
    exact ⟨fun m => Automaton.matchFrom_eq_some_iff, Automaton.matchFrom_eq_none_iff⟩

theorem decode_matches_sketch_clefs :
    let calls : List DraftCall :=
      [.addState (some 7), .onChar 0 '𝄞' 1, .onBytes 1 [97, 98] 1, .addState none,
        .onChar 0 '𝄟' 3, .setTerminal 3 9]
    ∃ p a, initial.run calls = .ok p ∧ Automaton.decode p.draft.toBytes = .ok a ∧
      a.stateCount = 4 ∧ a.longestMatch? ['𝄞', 'b', 'a', 'c'] = some ⟨7, 3, by decide⟩ ∧
      a.longestMatch? ['a', '𝄟'] = none := by
  intro calls
  let k : Sketch :=
    ⟨[3, 1, 0], [(3, 9), (1, 7)], [⟨0, '𝄟', 3⟩, ⟨1, 'b', 1⟩, ⟨1, 'a', 1⟩, ⟨0, '𝄞', 1⟩]⟩
  have built : ∃ p, initial.run calls = .ok p ∧ p.sketch = k ∧
      p.draft.table.cells.size < UInt32.size := by
    have check : (initial.run calls).toOption.any (fun p => decide (p.sketch = k ∧
        p.draft.states.toList.foldl (fun n s => n + s.cellCount) 0 < UInt32.size)) = true := by
      decide +kernel
    cases result : initial.run calls with
    | error =>
      rw [result] at check
      contradiction
    | ok p =>
      rw [result] at check
      obtain ⟨sketch, small⟩ := of_decide_eq_true check
      exact ⟨p, rfl, sketch, p.draft.size_table ▸ small⟩
  obtain ⟨p, done, sketch, small⟩ := built
  obtain ⟨a, decoded, count, found⟩ :=
    decode_matches_sketch done (by decide +kernel) (by decide +kernel) small
  rw [sketch] at found
  refine ⟨p, a, done, decoded, count, ((found _ 0).1 _).mpr ⟨by decide, by decide, ?_⟩,
    (found _ 0).2.mpr ?_⟩
  · intro n more le
    obtain rfl : n = 4 := Nat.le_antisymm le more
    decide
  · intro n pos le
    have le : n ≤ 2 := le
    obtain rfl | rfl : n = 1 ∨ n = 2 := by omega
    · decide
    · decide

end Drafting

end ParseKit
