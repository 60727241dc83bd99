import Mathlib.Algebra.GroupWithZero.Nat
import Ramify.Proofs.Search.Barren
import Ramify.Proofs.Search.Turns

/-!
# What the coordinator concludes

A crew that searches a pure machine comes to the right verdict by any schedule
(`Crew.truthful_run`). Three things are kept up by all that a turn can do:

* what the workers hold was reached, and what they report is so (`Crew.Sound`);
* the count of the coordinator, once it has read all reports, is the number of
  lines that are still open, together with those that ended in a report that
  decides the search; and before it has read them all, it is not zero
  (`Crew.Counted`). For a line is announced before it is opened, and the report
  that it came to nothing is the last thing that is heard of it. So the count is
  zero only when there is nothing left to do and to read (`Crew.Reckons`);
* if there is nothing to be found in what is left to do, there was nothing to be
  found at all (`Crew.Settled`).
-/

namespace Ramify.Search

variable {σ ε : Type} {kind : σ → Kind} {next : σ → Except ε (List σ)} {s t u : σ}
  {w : Worker σ ε} {new ws : List (Worker σ ε)} {r : Report σ ε} {out rs : List (Report σ ε)}

/-! ### What workers hold and report -/

/-- What a worker is about: its states have one property, its last report has
    another one. -/
def Worker.All (P : σ → Prop) (Q : Report σ ε → Prop) : Worker σ ε → Prop
  | .poll s | .compute s => P s
  | .conclude r => Q r
  | .announce t rest | .hire t rest => P t ∧ ∀ u ∈ rest, P u

/-- An unfinished state that was reached. -/
structure Open (kind : σ → Kind) (next : σ → Except ε (List σ)) (s t : σ) : Prop where
  unfinished : kind t = .unfinished
  reached : ∃ k, Leads kind next k s t

/-- What is said of how the search from a state ended is so, apart from its
    having come to an end. -/
def Outcome.Sound (kind : σ → Kind) (next : σ → Except ε (List σ)) (s : σ) : Outcome σ ε → Prop
  | .found t => kind t = .success ∧ ∃ k, Leads kind next k s t
  | .exhausted => True
  | .failed e => ∃ u, Open kind next s u ∧ next u = .error e
  | .stopped => False

/-- The last report of a worker is so. It is not one that announces others. -/
def Report.Sound (kind : σ → Kind) (next : σ → Except ε (List σ)) (s : σ) : Report σ ε → Prop
  | .started _ => False
  | .failed => True
  | .succeeded t => (Outcome.found t : Outcome σ ε).Sound kind next s
  | .aborted e => (Outcome.failed e).Sound kind next s

theorem Open.reaches {ts : List σ} (h : Open kind next s t) (hnext : next t = .ok ts)
    (hu : u ∈ ts) : ∃ k, Leads kind next k s u := by
  obtain ⟨ht, k, hlead⟩ := h
  exact ⟨k + 1, hlead.trans (.single ht hnext hu)⟩

/-- What is true of a worker is true of those that take its place, and of what it
    reports. -/
theorem Worker.Does.sound {off : Bool} (h : w.Does kind next off new out)
    (hw : w.All (Open kind next s) (Report.Sound kind next s)) :
    (∀ w' ∈ new, w'.All (Open kind next s) (Report.Sound kind next s)) ∧
      ∀ r ∈ out, (∃ n, r = .started n) ∨ r.Sound kind next s := by
  cases h with
  | leave => simp
  | stay | hired => simpa [All] using hw
  | fail hnext => simpa [All, Report.Sound, Outcome.Sound] using ⟨_, hw, hnext⟩
  | succeed hnext ht hsucc =>
    simpa [All, Report.Sound, Outcome.Sound] using ⟨hsucc, hw.reaches hnext ht⟩
  | giveUp => simp [All, Report.Sound]
  | follow hnext _ hmem =>
    obtain ⟨ht, hk⟩ := (hmem _).1 List.mem_cons_self
    have hopen : Open kind next s _ := ⟨hk, hw.reaches hnext ht⟩
    simpa [All] using hopen
  | branch hnext _ hmem =>
    have hopen : ∀ u ∈ _, Open kind next s u := fun u hu =>
      ⟨((hmem u).1 hu).2, hw.reaches hnext ((hmem u).1 hu).1⟩
    simpa [All] using List.forall_mem_cons.1 hopen
  | report => simpa using .inr hw
  | announce => simpa [All] using hw
  | hire =>
    obtain ⟨ht, hall⟩ := hw
    obtain ⟨hu, hrest⟩ := List.forall_mem_cons.1 hall
    simpa [All] using ⟨⟨ht, hrest⟩, hu⟩

namespace Crew

variable {c c' : Crew σ Unit ε}

/-- What is held and said anywhere is so. -/
structure Sound (kind : σ → Kind) (next : σ → Except ε (List σ)) (s : σ) (c : Crew σ Unit ε) :
    Prop where
  workers : ∀ w ∈ c.workers, w.All (Open kind next s) (Report.Sound kind next s)
  inbox : ∀ r ∈ c.inbox, (∃ n, r = .started n) ∨ r.Sound kind next s
  verdict : ∀ o, c.verdict = some o → o.Sound kind next s

theorem Sound.moves (h : c.Sound kind next s) (hmoves : Moves kind next c c') :
    c'.Sound kind next s := by
  cases hmoves with
  | idle => exact h
  | @work w new rest out c' hperm hdoes hperm' hinbox _ hverdict =>
    have hall : ∀ x ∈ w :: rest, x.All (Open kind next s) (Report.Sound kind next s) :=
      fun x hx => h.workers x (hperm.mem_iff.2 hx)
    obtain ⟨hw, hrest⟩ := List.forall_mem_cons.1 hall
    obtain ⟨hnew, hout⟩ := hdoes.sound hw
    refine ⟨fun x hx => ?_, fun r hr => ?_, fun o ho => h.verdict o (hverdict ▸ ho)⟩
    · rcases List.mem_append.1 (hperm'.mem_iff.1 hx) with hx | hx
      · exact hnew x hx
      · exact hrest x hx
    · rw [hinbox] at hr
      rcases List.mem_append.1 hr with hr | hr
      · exact h.inbox r hr
      · exact hout r hr
  | @read r rs hverdict hinbox =>
    have hall := h.inbox
    rw [hinbox] at hall
    obtain ⟨hr, hrs⟩ := List.forall_mem_cons.1 hall
    have hnone : ∀ o, c.verdict = some o → o.Sound kind next s := h.verdict
    cases r with
    | started n => exact ⟨h.workers, hrs, hnone⟩
    | failed =>
      rw [Crew.read]
      split
      · exact ⟨h.workers, hrs, fun o ho => by cases ho; trivial⟩
      · exact ⟨h.workers, hrs, hnone⟩
    | succeeded t =>
      refine ⟨h.workers, hrs, fun o ho => ?_⟩
      cases ho
      simpa [Report.Sound] using hr
    | aborted e =>
      refine ⟨h.workers, hrs, fun o ho => ?_⟩
      cases ho
      simpa [Report.Sound] using hr
  | quit => exact ⟨h.workers, h.inbox, fun o ho => by cases ho; trivial⟩

end Crew

/-! ### The count -/

/-- A report that decides the search. -/
def Report.decides : Report σ ε → Bool
  | .succeeded _ | .aborted _ => true
  | .started _ | .failed => false

/-- The number of lines that a worker has open, or has announced. -/
def Worker.lines : Worker σ ε → Nat
  | .hire _ rest => rest.length + 1
  | .poll _ | .compute _ | .conclude _ | .announce .. => 1

/-- What the count is after a report. -/
def Report.counted (n : Nat) : Report σ ε → Nat
  | .started count => n + count
  | .failed => n - 1
  | .succeeded _ | .aborted _ => n

/-- What the count is after several reports. -/
def tally (n : Nat) (rs : List (Report σ ε)) : Nat := rs.foldl Report.counted n

@[simp] theorem tally_nil (n : Nat) : tally n ([] : List (Report σ ε)) = n := rfl

@[simp] theorem tally_cons (n : Nat) : tally n (r :: rs) = tally (r.counted n) rs := rfl

@[simp] theorem tally_append (n : Nat) : tally n (rs ++ out) = tally (tally n rs) out :=
  List.foldl_append

theorem Worker.lines_pos (w : Worker σ ε) : 0 < w.lines := by
  cases w <;> simp [lines]

/-- A turn of a worker that is not told to stop keeps the books balanced. -/
theorem Worker.Does.lines {n : Nat} (h : w.Does kind next false new out)
    (hw : w.All (Open kind next s) (Report.Sound kind next s)) (hn : 0 < n) :
    tally n out + w.lines = n + (new.map Worker.lines).sum + out.countP Report.decides := by
  cases h with
  | leave hoff => cases hoff
  | stay | fail | succeed | giveUp | follow | branch | hired | hire => simp [Worker.lines]
  | announce => simp [Worker.lines, Report.counted, Report.decides, Nat.add_assoc]
  | @report r =>
    cases r with
    | started count => exact hw.elim
    | failed =>
      simp [Worker.lines, Report.counted, Report.decides]
      omega
    | succeeded | aborted => simp [Worker.lines, Report.counted, Report.decides]

namespace Crew

variable {c c' : Crew σ Unit ε}

/-- The books of the coordinator, with all reports that were sent. -/
structure Counted (c : Crew σ Unit ε) : Prop where
  /-- The count of all reports is that of the lines that are open, and of those
      that decided the search. -/
  balanced : tally c.active c.inbox =
    (c.workers.map Worker.lines).sum + c.inbox.countP Report.decides
  /-- The count is not zero while there are reports to be read. -/
  ahead : ∀ before, before <+: c.inbox → before ≠ c.inbox → 0 < tally c.active before

/-- The count of the coordinator is zero only when nothing is left to do or to
    read. -/
structure Reckons (c : Crew σ Unit ε) : Prop where
  going : c.verdict = none → c.Counted
  emptied : c.verdict = some .exhausted → c.workers = [] ∧ c.inbox = []
  pos : c.verdict ≠ some .exhausted → 0 < c.active

theorem Counted.start (s : σ) : (Crew.start s () : Crew σ Unit ε).Counted where
  balanced := by simp [Crew.start, Worker.lines]
  ahead before hprefix hne := absurd (List.prefix_nil.1 hprefix) hne

theorem Counted.work {new rest : List (Worker σ ε)} (h : c.Counted)
    (hperm : c.workers.Perm (w :: rest)) (hdoes : w.Does kind next false new out)
    (hw : w.All (Open kind next s) (Report.Sound kind next s))
    (hperm' : c'.workers.Perm (new ++ rest)) (hinbox : c'.inbox = c.inbox ++ out)
    (hactive : c'.active = c.active) : c'.Counted := by
  have hbalanced := h.balanced
  rw [(hperm.map Worker.lines).sum_nat, List.map_cons, List.sum_cons] at hbalanced
  -- The worker has a line open, so the count was not zero before its turn.
  have hpos : 0 < tally c.active c.inbox := by
    have := w.lines_pos
    omega
  have hlines := hdoes.lines hw hpos
  constructor
  · rw [hactive, hinbox, tally_append, (hperm'.map Worker.lines).sum_nat, List.map_append,
      List.sum_append, List.countP_append]
    omega
  · intro before hprefix hne
    rw [hactive]
    rw [hinbox] at hprefix hne
    have hout : out = [] ∨ ∃ r, out = [r] := by cases hdoes <;> simp
    obtain rfl | ⟨r, rfl⟩ := hout
    · rw [List.append_nil] at hprefix hne
      exact h.ahead before hprefix hne
    · -- A new report stands behind all that were sent.
      have hbefore := (List.prefix_concat_iff.1 hprefix).resolve_left hne
      by_cases heq : before = c.inbox
      · rwa [heq]
      · exact h.ahead before hbefore heq

/-- Reading a report that does not end the search. -/
theorem Counted.read (h : c.Counted) (hinbox : c.inbox = r :: rs) (hr : r.decides = false)
    (verdict : Option (Outcome σ ε)) :
    Counted { c with inbox := rs, active := r.counted c.active, verdict := verdict } := by
  obtain ⟨hbalanced, hahead⟩ := h
  rw [hinbox] at hbalanced hahead
  constructor
  · simpa [hr] using hbalanced
  · intro before hprefix hne
    have hpos := hahead (r :: before) (List.cons_prefix_cons.2 ⟨rfl, hprefix⟩)
      fun heq => hne (List.cons.inj heq).2
    simpa using hpos

theorem Counted.eq_nil_of_active (h : c.Counted) (hactive : c.active = 0) :
    c.workers = [] ∧ c.inbox = [] := by
  have hinbox : c.inbox = [] := by
    by_contra hne
    have hpos := h.ahead [] List.nil_prefix (Ne.symm hne)
    rw [tally_nil, hactive] at hpos
    exact Nat.lt_irrefl 0 hpos
  have hbalanced := h.balanced
  rw [hinbox, hactive] at hbalanced
  refine ⟨?_, hinbox⟩
  cases hworkers : c.workers with
  | nil => rfl
  | cons w ws =>
    have := w.lines_pos
    simp [hworkers] at hbalanced
    omega

theorem Reckons.moves (h : c.Reckons) (hsound : c.Sound kind next s)
    (hmoves : Moves kind next c c') : c'.Reckons := by
  cases hmoves with
  | idle => exact h
  | @work w new rest out c' hperm hdoes hperm' hinbox hactive hverdict =>
    refine ⟨fun hnone => ?_, fun hover => ?_, fun hne => ?_⟩
    · rw [hverdict] at hnone
      rw [hnone] at hdoes
      have hw := hsound.workers w (hperm.mem_iff.2 List.mem_cons_self)
      exact (h.going hnone).work hperm hdoes hw hperm' hinbox hactive
    · rw [hverdict] at hover
      rw [(h.emptied hover).1] at hperm
      exact absurd hperm.nil_eq (List.cons_ne_nil _ _).symm
    · rw [hactive]
      exact h.pos (hverdict ▸ hne)
  | @read r rs hverdict hinbox =>
    have hcounted := h.going hverdict
    have hpos : 0 < c.active := h.pos (by simp [hverdict])
    cases r with
    | started n =>
      refine ⟨fun _ => hcounted.read hinbox rfl _, fun hover => ?_, fun _ => ?_⟩
      · simp [Crew.read, hverdict] at hover
      · exact Nat.lt_of_lt_of_le hpos (Nat.le_add_right _ _)
    | failed =>
      rw [Crew.read]
      split
      · rename_i hzero
        have hread := hcounted.read hinbox rfl none
        refine ⟨nofun, fun _ => ?_, fun hne => absurd rfl hne⟩
        exact hread.eq_nil_of_active hzero
      · rename_i hne
        refine ⟨fun _ => hcounted.read hinbox rfl _, fun hover => ?_, fun _ => Nat.pos_of_ne_zero hne⟩
        simp [hverdict] at hover
    | succeeded t => exact ⟨nofun, nofun, fun _ => hpos⟩
    | aborted e => exact ⟨nofun, nofun, fun _ => hpos⟩
  | quit hverdict hinbox hworkers =>
    exact ⟨nofun, fun _ => ⟨hworkers, hinbox⟩, fun hne => absurd rfl hne⟩

end Crew

/-! ### What is left to be found -/

/-- If there is nothing to be found in what comes after a turn of a worker, there
    was nothing to be found before. -/
theorem Worker.Does.settled (h : w.Does kind next false new out)
    (hnew : ∀ w' ∈ new, w'.All (Barren kind next) (·.decides = false))
    (hout : ∀ r ∈ out, r.decides = false) : w.All (Barren kind next) (·.decides = false) := by
  cases h with
  | leave hoff => cases hoff
  | stay | hired | announce => simpa [All] using hnew
  | fail | succeed => simp [All, Report.decides] at hnew
  | giveUp hnext hfail =>
    refine Barren.intro hnext (fun t ht => ?_) fun t ht hk => ?_
    · simp [hfail t ht]
    · simp [hfail t ht] at hk
  | @follow _ t ts hnext hnone hmem =>
    have ht : Barren kind next t := by simpa [All] using hnew
    refine Barren.intro hnext hnone fun u hu hk => ?_
    rwa [List.mem_singleton.1 ((hmem u).2 ⟨hu, hk⟩)]
  | @branch _ t ts rest hnext hnone hmem =>
    have hall : ∀ u ∈ t :: rest, Barren kind next u := by simpa [All] using hnew
    exact Barren.intro hnext hnone fun u hu hk => hall u ((hmem u).2 ⟨hu, hk⟩)
  | report => simpa [All] using hout
  | hire =>
    simp only [All, List.forall_mem_cons] at hnew ⊢
    obtain ⟨⟨ht, hrest⟩, hu, -⟩ := hnew
    exact ⟨ht, hu, hrest⟩

namespace Crew

variable {c c' : Crew σ Unit ε}

/-- There is nothing to be found in what is left to do, and nothing was found. -/
structure Settled (kind : σ → Kind) (next : σ → Except ε (List σ)) (c : Crew σ Unit ε) : Prop where
  workers : ∀ w ∈ c.workers, w.All (Barren kind next) (·.decides = false)
  inbox : ∀ r ∈ c.inbox, r.decides = false
  verdict : ∀ o, c.verdict = some o → o = .exhausted

/-- If there is nothing to be found after a turn, there was nothing to be found
    before. -/
theorem Settled.moves (h : c'.Settled kind next) (hreckons : c.Reckons)
    (hmoves : Moves kind next c c') : c.Settled kind next := by
  cases hmoves with
  | idle => exact h
  | @work w new rest out c' hperm hdoes hperm' hinbox _ hverdict =>
    have hverdict' : ∀ o, c.verdict = some o → o = .exhausted := hverdict ▸ h.verdict
    have hall : ∀ x ∈ new ++ rest, x.All (Barren kind next) (·.decides = false) :=
      fun x hx => h.workers x (hperm'.mem_iff.2 hx)
    have hreports := h.inbox
    rw [hinbox] at hreports
    obtain ⟨hnew, hrest⟩ := List.forall_mem_append.1 hall
    obtain ⟨hold, hout⟩ := List.forall_mem_append.1 hreports
    cases hc : c.verdict with
    | some o =>
      -- Once nothing is left to do, no worker has a turn.
      have hover := (hreckons.emptied (by rw [hc, hverdict' o hc])).1
      rw [hover] at hperm
      exact absurd hperm.nil_eq (List.cons_ne_nil _ _).symm
    | none =>
      rw [hc] at hdoes
      refine ⟨fun x hx => ?_, hold, by simp [hc]⟩
      have hx' := hperm.mem_iff.1 hx
      rcases List.mem_cons.1 hx' with rfl | hx'
      · exact hdoes.settled hnew hout
      · exact hrest x hx'
  | @read r rs hverdict hinbox =>
    have hr : r.decides = false := by
      cases r with
      | started | failed => rfl
      | succeeded t => cases h.verdict (.found t) rfl
      | aborted e => cases h.verdict (.failed e) rfl
    have hrest : (∀ w ∈ c.workers, w.All (Barren kind next) (·.decides = false)) ∧
        ∀ r ∈ rs, r.decides = false := by
      cases r with
      | started | succeeded | aborted => exact ⟨h.workers, h.inbox⟩
      | failed =>
        rw [Crew.read] at h
        split at h
        · exact ⟨h.workers, h.inbox⟩
        · exact ⟨h.workers, h.inbox⟩
    refine ⟨hrest.1, ?_, by simp [hverdict]⟩
    rw [hinbox]
    exact List.forall_mem_cons.2 ⟨hr, hrest.2⟩
  | quit hverdict hinbox hworkers => exact ⟨h.workers, h.inbox, by simp [hverdict]⟩

/-! ### All schedules -/

/-- What holds of a crew at any time of a search from a state. -/
structure Orderly (kind : σ → Kind) (next : σ → Except ε (List σ)) (s : σ) (c : Crew σ Unit ε) :
    Prop where
  sound : c.Sound kind next s
  reckons : c.Reckons
  settles : c.Settled kind next → Barren kind next s

theorem Orderly.start (hs : kind s = .unfinished) :
    (Crew.start s () : Crew σ Unit ε).Orderly kind next s where
  sound := ⟨List.forall_mem_singleton.2 ⟨hs, 0, .refl s⟩, by simp [Crew.start], nofun⟩
  reckons := ⟨fun _ => .start s, nofun, fun _ => Nat.one_pos⟩
  settles h := h.workers _ List.mem_cons_self

theorem Orderly.moves (h : c.Orderly kind next s) (hmoves : Moves kind next c c') :
    c'.Orderly kind next s where
  sound := h.sound.moves hmoves
  reckons := h.reckons.moves h.sound hmoves
  settles hsettled := h.settles (hsettled.moves h.reckons hmoves)

/-- Whatever turns are taken, a crew keeps its order. -/
theorem Orderly.reaches (h : c.Orderly kind next s)
    (hmoves : Relation.ReflTransGen (Moves kind next) c c') : c'.Orderly kind next s := by
  induction hmoves with
  | refl => exact h
  | tail _ hmoves ih => exact ih.moves hmoves

/-- What a crew that searches from a state has concluded is so. -/
structure Truthful (kind : σ → Kind) (next : σ → Except ε (List σ)) (s : σ) (c : Crew σ Unit ε) :
    Prop where
  /-- A success that was found is one, and can be reached. -/
  found : ∀ t, c.verdict = some (.found t) → kind t = .success ∧ ∃ k, Leads kind next k s t
  /-- A failure is that of an unfinished state that can be reached. -/
  failed : ∀ e, c.verdict = some (.failed e) →
    ∃ u k, Leads kind next k s u ∧ kind u = .unfinished ∧ next u = .error e
  /-- If all was in vain, the tree of the unfinished states is finite, and none of
      them fails or has a success among its successors. -/
  exhausted : c.verdict = some .exhausted →
    {path | ∃ u, Lies kind next path s u ∧ kind u = .unfinished}.Finite ∧
    ∀ k u, Leads kind next k s u → kind u = .unfinished →
      ∃ ts, next u = .ok ts ∧ ∀ t ∈ ts, kind t ≠ .success
  /-- There is no other way for the search to end. -/
  ends : c.verdict ≠ some .stopped
  /-- As long as the search goes on, the count is not zero, so that a line can be
      taken off. -/
  counts : c.verdict = none → 0 < c.active
  /-- When the count is zero, no worker is left, and no report that decides the
      search. -/
  quiet : c.active = 0 → c.workers = [] ∧ ∀ r ∈ c.inbox, r.decides = false
  /-- As long as the search goes on, there is a report or a worker left. -/
  busy : c.verdict = none → c.inbox ≠ [] ∨ c.workers ≠ []
  /-- If nothing fails, a success is found just if a search generation by
      generation finds one. -/
  agrees : (∀ k u e, Leads kind next k s u → kind u = .unfinished → next u ≠ .error e) →
    ∀ limit o o', (Breadth.run (.ofPure kind next) limit s ()).1 = o → o ≠ .stopped →
      c.verdict = some o' → ((∃ t, o' = .found t) ↔ ∃ t, o = .found t)

theorem Orderly.barren (h : c.Orderly kind next s) (hover : c.verdict = some .exhausted) :
    Barren kind next s := by
  obtain ⟨hworkers, hinbox⟩ := h.reckons.emptied hover
  refine h.settles ⟨by simp [hworkers], by simp [hinbox], fun o ho => ?_⟩
  exact Option.some.inj (ho.symm.trans hover)

/-- A search generation by generation finds a success just if there is one. -/
theorem found_iff_of_run {limit : Nat} {o : Outcome σ ε} (hs : kind s = .unfinished)
    (hfail : ∀ k u e, Leads kind next k s u → kind u = .unfinished → next u ≠ .error e)
    (hrun : (Breadth.run (.ofPure kind next) limit s ()).1 = o) (hstop : o ≠ .stopped) :
    (∃ t, o = .found t) ↔ ∃ k t, Leads kind next k s t ∧ kind t = .success := by
  have hended : Breadth.Ended kind next limit [s] o := hrun ▸ Breadth.ended_run hs
  cases hended with
  | found hmem _ hlead hsucc =>
    rw [List.mem_singleton.1 hmem] at hlead
    exact ⟨fun _ => ⟨_, _, hlead, hsucc⟩, fun _ => ⟨_, rfl⟩⟩
  | exhausted hnone =>
    refine ⟨fun h => by simp at h, fun h => ?_⟩
    obtain ⟨k, t, hlead, hsucc⟩ := h
    exact absurd hsucc (hnone s List.mem_cons_self k t hlead)
  | failed hmem hlead hopen herr =>
    rw [List.mem_singleton.1 hmem] at hlead
    exact absurd herr (hfail _ _ _ hlead hopen)
  | stopped => exact absurd rfl hstop

theorem Orderly.truthful (hs : kind s = .unfinished) (h : c.Orderly kind next s) :
    c.Truthful kind next s := by
  have hzero : c.active = 0 → c.verdict = some .exhausted := by
    intro hactive
    by_contra hne
    exact absurd (h.reckons.pos hne) (by simp [hactive])
  constructor
  case found => exact fun t ht => h.sound.verdict _ ht
  case failed =>
    intro e he
    obtain ⟨u, ⟨hu, k, hlead⟩, herr⟩ := h.sound.verdict _ he
    exact ⟨u, k, hlead, hu, herr⟩
  case exhausted =>
    intro hover
    have hbarren := h.barren hover
    exact ⟨hbarren.finite, fun k u hlead hu => (hbarren.of_leads hlead hu).exists_next⟩
  case ends => exact fun hstop => h.sound.verdict _ hstop
  case counts => exact fun hnone => h.reckons.pos (by simp [hnone])
  case quiet =>
    intro hactive
    obtain ⟨hworkers, hinbox⟩ := h.reckons.emptied (hzero hactive)
    simp [hworkers, hinbox]
  case busy =>
    intro hnone
    by_contra hidle
    obtain ⟨hinbox, hworkers⟩ := not_or.1 hidle
    rw [not_not] at hinbox hworkers
    -- Then the books would balance at a count of zero.
    have hbalanced := (h.reckons.going hnone).balanced
    have hactive : c.active = 0 := by simpa [hinbox, hworkers] using hbalanced
    simp [hzero hactive] at hnone
  case agrees =>
    intro hfail limit o o' hrun hstop hverdict
    rw [found_iff_of_run hs hfail hrun hstop]
    have hsound := h.sound.verdict o' hverdict
    cases o' with
    | found t =>
      obtain ⟨hsucc, k, hlead⟩ := hsound
      exact ⟨fun _ => ⟨k, t, hlead, hsucc⟩, fun _ => ⟨t, rfl⟩⟩
    | exhausted =>
      refine ⟨fun hfound => by simp at hfound, fun hfound => ?_⟩
      obtain ⟨k, t, hlead, hsucc⟩ := hfound
      exact absurd hsucc ((h.barren hverdict).ne_success hs hlead)
    | failed e =>
      obtain ⟨u, ⟨hu, k, hlead⟩, herr⟩ := hsound
      exact absurd herr (hfail k u e hlead hu)
    | stopped => exact hsound.elim

/-- By any schedule, a crew that searches from an unfinished state concludes
    nothing but what is so. It does not matter either if workers learn with delay
    that the search was called off. -/
theorem truthful_run (hs : kind s = .unfinished) :
    (∀ schedule, (run (.ofPure kind next) schedule (start s ())).Truthful kind next s) ∧
    ∀ c, Relation.ReflTransGen (Moves kind next) (start s ()) c → c.Truthful kind next s := by
  have hall : ∀ c, Relation.ReflTransGen (Moves kind next) (start s ()) c →
      c.Truthful kind next s :=
    fun c hmoves => ((Orderly.start hs).reaches hmoves).truthful hs
  exact ⟨fun schedule => hall _ (reaches_run schedule _), hall⟩

/-- Sums of threes and fives, and whether they are eleven. -/
def sumKind (n : Nat) : Kind :=
  if n = 11 then .success else if 11 < n then .fail else .unfinished

/-- One more summand. -/
def sumNext (n : Nat) : Except Unit (List Nat) := .ok [n + 3, n + 5]

/-- A schedule in which two workers and the coordinator take turns. -/
def sumTurns : List Turn := (List.replicate 11 [.worker 0, .worker 1, .coordinator]).flatten

theorem truthful_run_sums : sumKind 0 = .unfinished ∧
    (run (.ofPure sumKind sumNext) sumTurns (start 0 ())).verdict = some (.found 11) ∧
    (run (.ofPure sumKind sumNext) sumTurns (start 0 ())).Truthful sumKind sumNext 0 :=
  ⟨rfl, rfl, (truthful_run rfl).1 sumTurns⟩

end Crew

end Ramify.Search
