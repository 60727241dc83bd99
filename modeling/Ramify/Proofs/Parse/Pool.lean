import Ramify.Proofs.Parse.Hosting
import Ramify.Proofs.Search.Order

/-!
# Steps in any order

At any moment a parse holds a pool of states. A search chooses which of them
takes the next step, and may also give some of them up. Whatever it chooses, the
pool goes on standing for a pool of attempts on their own, of which the same one
takes the step (`Hosts.step_pool`). When the choices are told by a list of picks,
the attempts on their own follow the same list (`Hosts.play`).
-/

namespace Ramify.Parse

/-- Gives up what a state holds. -/
def Shared.release {σ : Type} : State → Shared σ → Shared σ
  | .running a, s | .accepted a, s => s.discard a
  | .failed, s => s

/-- The states that are held at some moment. -/
structure Pool (σ : Type) where
  /-- The states, in order. -/
  states : List State
  /-- What they share. -/
  shared : Shared σ

/-- An attempt in a pool takes a step, and its successors take its place; or a
    state is given up. -/
inductive Pool.Step {σ : Type} (m : Machine) : Pool σ → Pool σ → Prop
  | advance {before after new : List State} {a : Attempt} {s s' : Shared σ} :
    m.step a s = (.ok new, s') →
    Step m ⟨before ++ .running a :: after, s⟩ ⟨before ++ (new ++ after), s'⟩
  | giveUp {before after : List State} {state : State} {s : Shared σ} :
    Step m ⟨before ++ state :: after, s⟩ ⟨before ++ after, s.release state⟩

/-- The same for attempts on their own. -/
inductive Solo.Moves (m : Machine) : List Solo.State → List Solo.State → Prop
  | advance {before after new : List Solo.State} {b : Solo} : b.step m = .ok new →
    Moves m (before ++ .running b :: after) (before ++ (new ++ after))
  | giveUp {before after : List Solo.State} {t : Solo.State} :
    Moves m (before ++ t :: after) (before ++ after)

namespace Hosts

variable {σ : Type} {m : Machine} {w : List Char} {s s' : Shared σ} {p p' : Pool σ}
  {guests : List Guest}

/-- A state gives up what it holds. -/
theorem release {state : State} {t : Solo.State} (h : Hosts w s ((state, t) :: guests)) :
    Hosts w (s.release state) guests := by
  cases h.stands _ List.mem_cons_self with
  | running => exact (running_iff.1 h).2.discard
  | accepted => exact (accepted_iff.1 h).2.discard
  | failed => exact failed_iff.1 h

/-- A pool goes on standing for attempts on their own. -/
theorem step_pool (h : Hosts w p.shared guests) (hp : guests.map (·.1) = p.states)
    (hstep : p.Step m p') : ∃ guests', guests'.map (·.1) = p'.states ∧
      Hosts w p'.shared guests' ∧ Solo.Moves m (guests.map (·.2)) (guests'.map (·.2)) := by
  cases hstep with
  | @advance before after new a s s' hnext =>
    obtain ⟨gb, _, rfl, rfl, hrest⟩ := List.map_eq_append_iff.1 hp
    obtain ⟨⟨_, t⟩, ga, rfl, rfl, rfl⟩ := List.map_eq_cons_iff.1 hrest
    -- Any attempt can be seen as the first one.
    have hfront := h.thin List.perm_middle.symm.subperm
    cases hfront.stands _ List.mem_cons_self with
    | @running _ b hlook =>
      cases hb : b.step m with
      | error e =>
        have herr := hfront.step.2 e hb
        dsimp only at hnext herr
        rw [hnext] at herr
        cases herr
      | ok ts =>
        obtain ⟨xs, s'', heq, rfl, h'⟩ := hfront.step.1 ts hb
        dsimp only at hnext heq
        obtain ⟨hnew, rfl⟩ := Prod.mk.inj (hnext.symm.trans heq)
        obtain rfl := Except.ok.inj hnew
        refine ⟨gb ++ (xs ++ ga), by simp, h'.thin ?_, ?_⟩
        · rw [← List.append_assoc, ← List.append_assoc]
          exact (List.perm_append_comm.append_right ga).subperm
        · rw [List.map_append, List.map_append, List.map_append, List.map_cons]
          exact .advance hb
  | @giveUp before after state s =>
    obtain ⟨gb, _, rfl, rfl, hrest⟩ := List.map_eq_append_iff.1 hp
    obtain ⟨⟨_, t⟩, ga, rfl, rfl, rfl⟩ := List.map_eq_cons_iff.1 hrest
    refine ⟨gb ++ ga, List.map_append, (h.thin List.perm_middle.symm.subperm).release, ?_⟩
    rw [List.map_append, List.map_append, List.map_cons]
    exact .giveUp

/-- A state takes a step without a fault, and so does what it stands for. -/
theorem exists_next {start : Symbol} {state : State} {t : Solo.State}
    (h : Hosts w s [(state, t)]) (ht : t.Sound m start w) : ∃ (new : List Guest) (s' : Shared σ),
      m.next state s = (.ok (new.map (·.1)), s') ∧ Solo.next m t = .ok (new.map (·.2)) := by
  cases h.stands _ List.mem_cons_self with
  | @running a b =>
    obtain ⟨ts, hts, -⟩ := Solo.step_eq_ok (m := m) ht.length_le
    obtain ⟨new, s', hnew, rfl, -⟩ := h.step.1 ts hts
    exact ⟨new, s', hnew, hts⟩
  | @accepted a b => exact ⟨[(.accepted a, .accepted b)], s, rfl, rfl⟩
  | failed => exact ⟨[(.failed, .failed)], s, rfl, rfl⟩

/-- States can be given up, and attempts on their own never fail. -/
theorem steady (m : Machine) (start : Symbol) (w : List Char) :
    Search.Simulates.Steady Solo.State.kind (Solo.next m) (Hosts (σ := σ) w) Shared.release
      (Solo.State.Sound m start w) where
  release h := h.release
  next {t} ht hopen := by
    cases t with
    | running b =>
      obtain ⟨ts, hts, -⟩ := Solo.step_eq_ok (m := m) ht.length_le
      exact ⟨ts, hts, fun u hu => ht.next hts hu⟩
    | accepted b | failed => cases hopen

/-- Whatever is picked, the states stand for attempts on their own that play the
    same picks. -/
theorem play {start : Symbol} {a : Attempt}
    (h : Hosts w s [(.running a, .running (Solo.begin start w))]) (picks : List Search.Pick) :
    ∃ guests s', m.automaton.play Shared.release picks [.running a] s =
        .ok (guests.map (·.1), s') ∧
      (Search.Automaton.ofPure Solo.State.kind (Solo.next m)).play Search.keep picks
        [.running (Solo.begin start w)] () = .ok (guests.map (·.2), ()) ∧
      Hosts w s' guests ∧ ∀ x ∈ guests, x.2.Sound m start w :=
  (simulates m w).play (steady m start w) picks h (List.forall_mem_singleton.2 Underway.begin)

end Hosts

end Ramify.Parse
