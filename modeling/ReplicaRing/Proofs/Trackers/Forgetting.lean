import ReplicaRing.Proofs.Trackers.Waiting

/-!
# Forgetting a ring

Rings may be forgotten while other calls run, also transitions of the same ring. Where none of their
pairs is begun and nothing is recovered meanwhile (`History.Reserved`), memory and store are in step
once no call is in flight, and nothing is left of a ring that was forgotten
(`History.inStep_of_forgetting`).

A call that forgets a ring gathers its cells first. A pair that is begun after this is not among
them: its cell leaves the table with the ring, while what is saved of it later stays
(`History.leftBehind`).
-/

namespace ReplicaRing

theorem Activity.eq_forget_of_forgets? {a : Activity} {call : Call} {ring : RingVersion}
    (h : a.Serves call) (hring : a.forgets? = some ring) : call = .forget ring := by
  cases a with
  | lockingAll | deleting | clearing =>
    obtain rfl := Option.some.inj hring
    exact h
  | _ => cases hring

theorem Activity.eq_recover_of_pending {a : Activity} {call : Call} (h : a.Serves call)
    {r : PhaseRecord} (hr : r ∈ a.pending) : call = .recover := by
  cases a with
  | merging | adopting => exact h
  | _ => cases hr

namespace History

variable {h h' : History}

/-- No pair of a ring that is forgotten is begun, and where a ring is forgotten nothing is
recovered. -/
def Reserved (h : History) : Prop :=
  ∀ ring, .forget ring ∈ h.calls →
    .recover ∉ h.calls ∧ ∀ pair, .begin pair ∈ h.calls → pair.ring ≠ ring

theorem Reserved.of_step (hreserved : h'.Reserved) (hstep : Step h h') : h.Reserved := by
  have hsubset := hstep.calls_sublist.subset
  intro ring hring
  obtain ⟨hrecover, hbegin⟩ := hreserved ring (hsubset hring)
  exact ⟨fun hmem => hrecover (hsubset hmem), fun pair hmem => hbegin pair (hsubset hmem)⟩

/-- Each activity serves one of the calls. -/
theorem Recorded.exists_call (hrec : h.Recorded) {n : Nat} {a : Activity}
    (ha : h.session.activities[n]? = some a) :
    ∃ call, h.calls[n]? = some call ∧ a.Serves call := by
  obtain ⟨hlt, -⟩ := List.getElem?_eq_some_iff.1 ha
  have hcall := List.getElem?_eq_getElem (hrec.length ▸ hlt)
  exact ⟨_, hcall, hrec.serves n _ a hcall ha⟩

section Move

variable {k : Nat} {a next : Activity} {reply : Reply} {t : Tracker}

/-- No cell is added for a ring that is forgotten. -/
theorem Recorded.ring_ne_of_new (hrec : h.Recorded) (hreserved : h.Reserved)
    (hk : h.session.activities[k]? = some a) (hmoves : a.Moves k h.session.tracker reply t next)
    {ring : RingVersion} (hring : .forget ring ∈ h.calls) {i : Nat} {c : Cell}
    (hc : t.cells[i]? = some c) (hnone : h.session.tracker.cells[i]? = none) :
    c.pair.ring ≠ ring := by
  obtain ⟨hrecover, hbegin⟩ := hreserved ring hring
  obtain ⟨call, hcall, hserves⟩ := hrec.exists_call hk
  have hmem := List.mem_of_getElem? hcall
  rcases hmoves.new hc hnone with rfl | ⟨count, record, rest, rfl, -⟩
  · obtain rfl := hserves
    exact hbegin _ hmem
  · obtain rfl := hserves
    exact absurd hmem hrecover

theorem Recorded.undisturbed (hrec : h.Recorded) (hreserved : h.Reserved)
    (hk : h.session.activities[k]? = some a) (hmoves : a.Moves k h.session.tracker reply t next) :
    h.session.Undisturbed ⟨t, h.session.activities.set k next⟩ := by
  intro b hb ring hring
  obtain ⟨n, hn⟩ := List.mem_iff_getElem?.1 hb
  obtain ⟨call, hcall, hserves⟩ := hrec.exists_call hn
  obtain rfl := Activity.eq_forget_of_forgets? hserves hring
  have hforget := List.mem_of_getElem? hcall
  constructor
  · intro d hd r hr
    obtain ⟨m, hm⟩ := List.mem_iff_getElem?.1 hd
    obtain ⟨call, hcall, hserves⟩ := hrec.exists_call hm
    obtain rfl := Activity.eq_recover_of_pending hserves hr
    exact absurd (List.mem_of_getElem? hcall) (hreserved ring hforget).1
  · intro c hc
    obtain ⟨i, hi⟩ := List.mem_iff_getElem?.1 hc
    rw [List.getElem?_drop] at hi
    exact hrec.ring_ne_of_new hreserved hk hmoves hforget hi (List.getElem?_eq_none (by omega))

/-- A call that has forgotten its ring has taken the cells of the ring out. -/
theorem liveWithin_of_forgotten {ring : RingVersion} (hserves : a.Serves (.forget ring))
    (hmoves : a.Moves k h.session.tracker reply t next) (hnext : next = .finished .forgotten) :
    t.LiveWithin ring [] := by
  cases hmoves with
  | clear =>
    obtain rfl := Call.forget.inj hserves
    intro i c hc hlive hring
    rw [Tracker.cells_unlockAll, Tracker.cells_drop, Option.map_map, Option.map_eq_some_iff] at hc
    obtain ⟨d, -, rfl⟩ := hc
    simp only [Function.comp_apply] at hlive hring
    have hd : d.pair.ring = ring := by
      split at hring <;> split at hring <;> exact hring
    simp only [hd, decide_true, if_true] at hlive
    split at hlive <;> cases hlive
  | @missAsked _ question | @confirmLive _ _ _ question | @confirmDead _ _ _ question =>
    cases question <;> cases hserves
  | _ => cases hnext

end Move

/-- What holds along histories in which rings are forgotten undisturbed. -/
structure Cleared (h : History) : Prop where
  coherent : h.session.Coherent
  recorded : h.Recorded
  gone : ∀ (n : Nat) (ring : RingVersion), h.calls[n]? = some (.forget ring) →
    h.session.activities[n]? = some (.finished .forgotten) →
      h.session.tracker.LiveWithin ring []

theorem Cleared.step (hclear : h.Cleared) (hreserved : h'.Reserved) (hstep : Step h h') :
    h'.Cleared := by
  have hrecorded := hclear.recorded.step hstep
  have hbefore := hreserved.of_step hstep
  rcases step_cases hstep with ⟨call, rfl⟩ | ⟨k, a, reply, t, next, hk, honest, hmoves, rfl⟩
  · refine ⟨hclear.coherent.start call, hrecorded, fun n ring hcall hn => ?_⟩
    rcases getElem?_concat_eq_some hn with hn | ⟨-, hstart⟩
    · obtain ⟨c, hc, -⟩ := hclear.recorded.exists_call hn
      obtain ⟨hlt, -⟩ := List.getElem?_eq_some_iff.1 hc
      have hcall : h.calls[n]? = some (.forget ring) :=
        (List.getElem?_append_left hlt).symm.trans hcall
      exact hclear.gone n ring hcall hn
    · cases call with
      | lagging ring participants required => cases participants <;> cases hstart
      | _ => cases hstart
  · have hcalm := hclear.recorded.undisturbed hbefore hk hmoves
    refine ⟨hclear.coherent.of_moves hk honest hmoves hcalm, hrecorded, fun n ring hcall hn => ?_⟩
    have hactivity := (Session.getElem?_set_of_some hk next n).symm.trans hn
    split at hactivity
    · rename_i hnk
      subst hnk
      exact liveWithin_of_forgotten (hclear.recorded.serves n _ a hcall hk) hmoves
        (Option.some.inj hactivity)
    · -- The ring was forgotten before, and no cell of it has been added.
      have hgone := hclear.gone n ring hcall hactivity
      intro i c hc hlive hring
      cases hold : h.session.tracker.cells[i]? with
      | none =>
        exact absurd hring (hclear.recorded.ring_ne_of_new hbefore hk hmoves
          (List.mem_of_getElem? hcall) hc hold)
      | some d =>
        obtain ⟨c', hc', hpair, hdead⟩ := hmoves.old hold
        obtain rfl := Option.some.inj (hc.symm.trans hc')
        exact hgone i d hold (hdead hlive) (by rw [← hpair, hring])

theorem Cleared.of_leadsTo (hclear : h.Cleared) (hlead : LeadsTo h h') (hreserved : h'.Reserved) :
    h'.Cleared := by
  induction hlead with
  | refl => exact hclear
  | tail _ hstep ih => exact (ih (hreserved.of_step hstep)).step hreserved hstep

/-- Where no pair of a ring is begun and nothing is recovered while the ring is forgotten, memory
and store are in step once no call is in flight, and a ring that was forgotten has left nothing in
either of them. -/
theorem inStep_of_forgetting {t : Tracker} (ht : t.InStep) (hlead : LeadsTo (of t) h)
    (hreserved : h.Reserved) (hsettled : h.Settled) :
    (∀ pair, h.session.tracker.held? pair = h.session.tracker.store.phase? pair) ∧
      ∀ n ring, h.calls[n]? = some (.forget ring) → h.session.outcome? n = some .forgotten →
        ∀ pair, pair.ring = ring → h.session.tracker.held? pair = none ∧
          h.session.tracker.store.phase? pair = none := by
  have hclear₀ : (of t).Cleared := by
    refine ⟨Session.coherent_of_inStep ht, recorded_of t, fun n ring hcall => ?_⟩
    rw [of, List.getElem?_nil] at hcall
    cases hcall
  have hclear := hclear₀.of_leadsTo hlead hreserved
  have hsame := (hclear.coherent.inStep hsettled).same
  refine ⟨hsame, fun n ring hcall ho pair hring => ?_⟩
  have hgone := hclear.gone n ring hcall (activity_of_outcome? ho)
  have hheld : h.session.tracker.held? pair = none := by
    cases hp : h.session.tracker.held? pair with
    | none => rfl
    | some p =>
      obtain ⟨i, c, hc, hlive, rfl, -⟩ := hclear.coherent.single.held?_eq_some_iff.1 hp
      exact absurd (hgone i c hc hlive hring) List.not_mem_nil
  exact ⟨hheld, (hsame pair).symm.trans hheld⟩

/-! A transition has still to save its record when its ring is gathered; another comes too late. -/

def transitionInFlight : List Event :=
  [.start (.transition trackedPair .ready2), .move 0 .done, .move 0 .done, .move 0 .done,
    .start (.forget trackedPair.ring), .move 1 .done, .move 0 .done, .move 1 .done, .move 1 .done,
    .move 1 .done, .move 1 .done, .start (.transition trackedPair .localComplete1), .move 2 .done]

def forgotten : History :=
  ((of oneTracked).play? transitionInFlight).getD (of oneTracked)

theorem inStep_of_forgetting_transitionInFlight :
    oneTracked.InStep ∧ LeadsTo (of oneTracked) forgotten ∧ forgotten.Reserved ∧
      forgotten.Settled ∧ forgotten.session.outcome? 0 = some .moved ∧
      forgotten.session.outcome? 1 = some .forgotten ∧
      forgotten.session.outcome? 2 = some (.failed (.pairNotFound trackedPair.ring "s1")) ∧
      forgotten.session.tracker.held? trackedPair = none ∧
      forgotten.session.tracker.store.phase? trackedPair = none := by
  have hlead : LeadsTo (of oneTracked) forgotten := leadsTo_of_play? transitionInFlight rfl
  have hcalls : forgotten.calls = [.transition trackedPair .ready2, .forget trackedPair.ring,
    .transition trackedPair .localComplete1] := rfl
  have hreserved : forgotten.Reserved := by simp [Reserved, hcalls]
  have hsettled : forgotten.Settled := by
    have hactivities : forgotten.session.activities = [.finished .moved, .finished .forgotten,
      .untracked trackedPair] := rfl
    simp [Settled, hactivities, Activity.untracked, Activity.fail]
  have hnothing := (inStep_of_forgetting inStep_oneTracked hlead hreserved hsettled).2 1
    trackedPair.ring rfl rfl trackedPair rfl
  exact ⟨inStep_oneTracked, hlead, hreserved, hsettled, rfl, rfl, rfl, hnothing⟩

/-! ### A pair that is begun too late to be gathered -/

def begunWhileForgotten : List Event :=
  [.start (.forget newPair.ring), .move 0 .done, .start (.begin newPair), .move 1 .done,
    .move 1 .done, .start (.transition newPair .ready1), .move 2 .done, .move 2 .done,
    .move 2 .done, .move 0 .done, .move 0 .done, .move 0 .done, .move 2 .done]

/-- All calls succeed, and the pair is stored in the end but not kept in memory. The transition was
in flight while the ring was forgotten, and was not waited for. -/
theorem leftBehind : ∃ h, LeadsTo (of (.onStore .empty)) h ∧ h.Settled ∧
    h.calls = [.forget newPair.ring, .begin newPair, .transition newPair .ready1] ∧
    h.session.outcome? 0 = some .forgotten ∧ h.session.outcome? 1 = some (.begun .initial) ∧
    h.session.outcome? 2 = some .moved ∧ h.session.tracker.held? newPair = none ∧
    h.session.tracker.store.phase? newPair = some .ready1 := by
  have hplays : ((of (.onStore .empty)).play? begunWhileForgotten).isSome = true := rfl
  refine ⟨_, leadsTo_of_play? begunWhileForgotten (Option.some_get hplays).symm, ?_, rfl, rfl, rfl,
    rfl, rfl, rfl⟩
  have hactivities :
      (((of (.onStore .empty)).play? begunWhileForgotten).get hplays).session.activities =
        [.finished .forgotten, .finished (.begun .initial), .finished .moved] := rfl
  simp [Settled, hactivities]

end History

end ReplicaRing
