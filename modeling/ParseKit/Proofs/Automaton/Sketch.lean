import Mathlib.Data.List.Dedup
import ParseKit.Automaton.Draft
import ParseKit.Proofs.Automaton.Walk
import ParseKit.Proofs.Text.Units

/-!
# Programs that draft automata

A program of calls builds a draft. Beside the draft, `Drafting` keeps the automaton over whole
characters that the calls describe, its `Sketch`.
-/

namespace ParseKit

structure Edge where
  source : UInt16
  char : Char
  target : UInt16
deriving DecidableEq

namespace Edge

def key (e : Edge) : UInt16 × Char := (e.source, e.char)

def lead? (e : Edge) : Option (UInt16 × UInt16) :=
  match Units.ofChar e.char with
  | .single _ => none
  | .pair lead _ => some (e.source, lead)

end Edge

/-- An automaton over characters. Terminals and transitions stand latest first. -/
structure Sketch where
  names : List UInt16
  terminals : List (UInt16 × UInt16)
  edges : List Edge
deriving DecidableEq

namespace Sketch

def initial : Sketch := ⟨[Draft.initial], [], []⟩

def addState (k : Sketch) (name : UInt16) (terminal : Option UInt16) : Sketch :=
  { k with
    names := name :: k.names
    terminals := terminal.toList.map (fun t => (name, t)) ++ k.terminals }

def setTerminal (k : Sketch) (name terminal : UInt16) : Sketch :=
  { k with terminals := (name, terminal) :: k.terminals }

def addEdge (k : Sketch) (e : Edge) : Sketch := { k with edges := e :: k.edges }

def addEdges (k : Sketch) (edges : List Edge) : Sketch := edges.foldl addEdge k

def terminal? (k : Sketch) (n : UInt16) : Option UInt16 :=
  (k.terminals.lookup n).bind fun t => if t = noTerminal then none else some t

def step? (k : Sketch) (n : UInt16) (c : Char) : Option UInt16 :=
  (k.edges.find? fun e => e.key == (n, c)).map Edge.target

def walk? (k : Sketch) : UInt16 → List Char → Option UInt16
  | n, [] => some n
  | n, c :: rest => (k.step? n c).bind fun q => k.walk? q rest

def recognized? (k : Sketch) (n : UInt16) (run : List Char) : Option UInt16 :=
  (k.walk? n run).bind k.terminal?

def leads (k : Sketch) : List (UInt16 × UInt16) := k.edges.filterMap Edge.lead?

end Sketch

/-! ### Programs -/

inductive DraftCall where
  | addState (terminal : Option UInt16)
  | setTerminal (state terminal : UInt16)
  | onByte (source : UInt16) (value : UInt8) (target : UInt16)
  | onBytes (source : UInt16) (values : List UInt8) (target : UInt16)
  | onChar (source : UInt16) (c : Char) (target : UInt16)
deriving DecidableEq

namespace DraftCall

def addsState : DraftCall → Bool
  | .addState _ => true
  | _ => false

def states : DraftCall → List UInt16
  | .addState _ => []
  | .setTerminal state _ => [state]
  | .onByte source _ target => [source, target]
  | .onBytes source _ target => [source, target]
  | .onChar source _ target => [source, target]

/-- The transitions that a call is given; a byte is the character of its value. -/
def edges : DraftCall → List Edge
  | .addState _ => []
  | .setTerminal _ _ => []
  | .onByte source value target => [⟨source, Char.ofUInt8 value, target⟩]
  | .onBytes source values target => values.map fun value => ⟨source, Char.ofUInt8 value, target⟩
  | .onChar source c target => [⟨source, c, target⟩]

theorem ends_mem_states {c : DraftCall} {e : Edge} (member : e ∈ c.edges) :
    e.source ∈ c.states ∧ e.target ∈ c.states := by
  cases c with
  | addState _ => exact nomatch member
  | setTerminal _ _ => exact nomatch member
  | onByte source value target =>
    obtain rfl := List.mem_singleton.mp member
    exact ⟨List.mem_cons_self, List.mem_cons_of_mem _ List.mem_cons_self⟩
  | onBytes source values target =>
    obtain ⟨_, -, rfl⟩ := List.mem_map.mp member
    exact ⟨List.mem_cons_self, List.mem_cons_of_mem _ List.mem_cons_self⟩
  | onChar source char target =>
    obtain rfl := List.mem_singleton.mp member
    exact ⟨List.mem_cons_self, List.mem_cons_of_mem _ List.mem_cons_self⟩

end DraftCall

structure Drafting where
  draft : Draft
  sketch : Sketch
deriving DecidableEq

namespace Drafting

def initial : Drafting := ⟨.empty, .initial⟩

/-- One call. A new state is known by the number that the draft hands out for it. -/
def call (p : Drafting) : DraftCall → Except Violation Drafting
  | .addState terminal =>
    (p.draft.addState terminal).map fun (id, d) => ⟨d, p.sketch.addState id terminal⟩
  | .setTerminal state terminal =>
    (p.draft.setTerminal state terminal).map fun d => ⟨d, p.sketch.setTerminal state terminal⟩
  | .onByte source value target =>
    (p.draft.onByte source value target).map fun d =>
      ⟨d, p.sketch.addEdges (DraftCall.onByte source value target).edges⟩
  | .onBytes source values target =>
    (p.draft.onBytes source values target).map fun d =>
      ⟨d, p.sketch.addEdges (DraftCall.onBytes source values target).edges⟩
  | .onChar source c target =>
    (p.draft.onChar source c target).map fun d =>
      ⟨d, p.sketch.addEdges (DraftCall.onChar source c target).edges⟩

def run (p : Drafting) (calls : List DraftCall) : Except Violation Drafting := calls.foldlM call p

/-- Each call is given only the initial state and states that were handed out before. -/
def InScope (p : Drafting) : List DraftCall → Prop
  | [] => True
  | c :: rest => (∀ n ∈ c.states, n ∈ p.sketch.names) ∧ ∀ q, p.call c = .ok q → q.InScope rest

instance decidableInScope : (p : Drafting) → (calls : List DraftCall) → Decidable (p.InScope calls)
  | _, [] => isTrue trivial
  | p, c :: rest =>
    have later : Decidable (∀ q, p.call c = .ok q → q.InScope rest) :=
      match p.call c with
      | .ok q =>
        have := decidableInScope q rest
        decidable_of_iff (q.InScope rest)
          ⟨fun h _ same => Except.ok.inj same ▸ h, fun all => all q rfl⟩
      | .error _ => isTrue fun _ same => (nomatch same)
    @instDecidableAnd _ _ (List.decidableBAll (fun n => n ∈ p.sketch.names) c.states) later

end Drafting

/-! ### Steps of a sketch -/

namespace Sketch

variable {k : Sketch} {n q : UInt16} {c : Char} {e : Edge}

theorem mem_edges_of_step? (step : k.step? n c = some q) : ⟨n, c, q⟩ ∈ k.edges := by
  obtain ⟨⟨source, char, target⟩, found, rfl⟩ := Option.map_eq_some_iff.mp step
  have key := List.find?_some found
  rw [beq_iff_eq] at key
  cases key
  exact List.mem_of_find?_eq_some found

theorem source_of_lead? {lead : UInt16} (led : e.lead? = some (n, lead)) : e.source = n := by
  unfold Edge.lead? at led
  split at led
  · contradiction
  · cases led
    rfl

theorem step?_eq_none_iff : k.step? n c = none ↔ (n, c) ∉ k.edges.map Edge.key := by
  rw [step?, Option.map_eq_none_iff, List.find?_eq_none, List.mem_map]
  simp only [beq_iff_eq, not_exists, not_and]

/-- Where no two transitions share their source and character, the steps are the transitions. -/
theorem step?_eq_some_iff (once : (k.edges.map Edge.key).Nodup) :
    k.step? n c = some q ↔ ⟨n, c, q⟩ ∈ k.edges := by
  refine ⟨mem_edges_of_step?, ?_⟩
  intro member
  cases step : k.step? n c with
  | none => exact absurd (List.mem_map_of_mem member) (step?_eq_none_iff.mp step)
  | some q' =>
    have same : (⟨n, c, q'⟩ : Edge) = ⟨n, c, q⟩ :=
      List.inj_on_of_nodup_map once (mem_edges_of_step? step) member rfl
    cases same
    rfl

theorem step?_addEdge :
    (k.addEdge e).step? n c = if (n, c) = e.key then some e.target else k.step? n c := by
  rw [step?, addEdge, List.find?_cons]
  by_cases same : (n, c) = e.key
  · rw [if_pos same, same, beq_self_eq_true]
    rfl
  · rw [if_neg same, beq_eq_false_iff_ne.mpr (Ne.symm same)]
    rfl

theorem terminal?_setTerminal (terminal : UInt16) :
    (k.setTerminal q terminal).terminal? n =
      if n = q then (if terminal = noTerminal then none else some terminal) else k.terminal? n := by
  rw [terminal?, setTerminal, List.lookup_cons]
  by_cases same : n = q
  · rw [if_pos same, same, beq_self_eq_true]
    rfl
  · rw [if_neg same, beq_eq_false_iff_ne.mpr same]
    rfl

theorem terminal?_addState {terminal : Option UInt16} (unmarked : ∀ t ∈ k.terminals, t.1 ≠ q) :
    (k.addState q terminal).terminal? n =
      if n = q then terminal.bind fun t => if t = noTerminal then none else some t
      else k.terminal? n := by
  cases terminal with
  | none =>
    split
    · next same =>
      have unset : k.terminals.lookup n = none := by
        apply List.lookup_eq_none_iff.mpr
        intro t member
        exact bne_iff_ne.mpr fun key => unmarked t member (key.symm.trans same)
      change (k.terminals.lookup n).bind _ = _
      rw [unset]
    · rfl
  | some t => exact terminal?_setTerminal t

theorem names_addEdges (k : Sketch) (edges : List Edge) : (k.addEdges edges).names = k.names := by
  induction edges generalizing k with
  | nil => rfl
  | cons e rest ih => exact ih (k.addEdge e)

theorem edges_addEdges (k : Sketch) (edges : List Edge) :
    (k.addEdges edges).edges = edges.reverse ++ k.edges := by
  induction edges generalizing k with
  | nil => rfl
  | cons e rest ih =>
    refine (ih (k.addEdge e)).trans ?_
    rw [List.reverse_cons, List.append_assoc]
    rfl

end Sketch

end ParseKit
