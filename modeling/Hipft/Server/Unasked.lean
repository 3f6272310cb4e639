import Hipft.Server.Converge

/-! # A channel that is asked for nothing again

Its thread sends the packets of the first pass and no others, and leaves the channel's record
alone.
-/

namespace Hipft

open CMemory Transitions

/-- The thread is at what the loop does with a message from the record. -/
def Place.relays : Place → Bool
  | .add | .free | .reset => true
  | _ => false

/-- Nothing was asked for again so far. -/
structure Worker.Unasked (w : Worker) : Prop where
  data : w.chan.data = false
  retransSec : w.thread.retransSec = []
  place : w.thread.place.relays = false
  ended : w.thread.place = .ended → w.chan.kill = true
  sent : ∀ s ∈ w.thread.sent, s.isFirst = true

section Step

variable {w w' : Worker} {msgID : UInt32}

theorem Worker.Unasked.branch (hunasked : w.Unasked) (hbranch : w.branch msgID = .ok w') :
    (w'.goto .loop).Unasked := by
  rw [Worker.branch] at hbranch
  split at hbranch
  next =>
    rw [Worker.sendAgain, hunasked.retransSec] at hbranch
    cases hbranch
    exact ⟨hunasked.data, hunasked.retransSec, rfl, Place.noConfusion, hunasked.sent⟩
  next =>
    obtain ⟨handle, -, hbranch⟩ := run_bind_eq_ok.mp hbranch
    obtain ⟨numSegments, -, hbranch⟩ := run_bind_eq_ok.mp hbranch
    simp only at hbranch
    split at hbranch
    next =>
      obtain ⟨m, -, hbranch⟩ := run_bind_eq_ok.mp hbranch
      cases hbranch
      refine ⟨hunasked.data, hunasked.retransSec, rfl, Place.noConfusion, ?_⟩
      exact List.forall_mem_append.mpr ⟨hunasked.sent, List.forall_mem_singleton.mpr rfl⟩
    next =>
      cases hbranch
      exact ⟨hunasked.data, hunasked.retransSec, rfl, Place.noConfusion, hunasked.sent⟩

/-- The record stays as it is, and there is still nothing to be asked for. -/
theorem Worker.Unasked.step (hunasked : w.Unasked) (hstep : w.step msgID = .ok w') :
    w'.Unasked ∧ w'.chan = w.chan := by
  have hgoto : ∀ place : Place, place.relays = false →
      (place = .ended → w.chan.kill = true) → (w.goto place).Unasked :=
    fun place hplace hended =>
      ⟨hunasked.data, hunasked.retransSec, hplace, hended, hunasked.sent⟩
  have hplace := hunasked.place
  rw [Worker.step] at hstep
  cases hat : w.thread.place with
  | waiting =>
      rw [hat] at hstep
      cases hstep
      split
      next => exact ⟨hunasked, rfl⟩
      next => exact ⟨hgoto .loop rfl Place.noConfusion, rfl⟩
  | loop =>
      rw [hat] at hstep
      cases hstep
      split
      next hkill => exact ⟨hgoto .ended rfl fun _ => hkill, rfl⟩
      next => exact ⟨hgoto .relay rfl Place.noConfusion, rfl⟩
  | relay =>
      rw [hat] at hstep
      cases hstep
      simp only [hunasked.data, Bool.false_eq_true, if_false]
      exact ⟨hgoto .branch rfl Place.noConfusion, rfl⟩
  | add | free | reset =>
      rw [hat] at hplace
      cases hplace
  | branch =>
      rw [hat] at hstep
      obtain ⟨next, hbranch, hstep⟩ := run_bind_eq_ok.mp hstep
      cases hstep
      have hchan : next.chan = w.chan := Worker.branch_chan hbranch
      exact ⟨hunasked.branch hbranch, hchan⟩
  | ended =>
      rw [hat] at hstep
      cases hstep
      exact ⟨hunasked, rfl⟩

end Step

/-! ## What such a channel sends -/

/-- The channel sends the file in segments of this size, and was asked for nothing again. -/
structure Serves (fhandle : FileHandle) (size : UInt64) (w : Worker) : Prop where
  running : ∃ firsts agains, Running fhandle w firsts agains
  sends : SendsSegments w
  unasked : w.Unasked
  maxSize : w.chan.maxSize = size

section Serves

variable {fhandle : FileHandle} {size : UInt64} {w w' : Worker} {msgID : UInt32}

theorem serves_start (sock : Nat) (selfID otherID : UInt64) (fhandle : FileHandle)
    (hsize : size ≠ 0) : Serves fhandle size (.start sock selfID otherID size fhandle) where
  running := ⟨[], [], running_start sock selfID otherID fhandle hsize⟩
  sends := List.forall_mem_nil _
  unasked := ⟨rfl, rfl, rfl, Place.noConfusion, List.forall_mem_nil _⟩
  maxSize := rfl

theorem Serves.setReady (hserves : Serves fhandle size w) : Serves fhandle size w.setReady := by
  obtain ⟨⟨firsts, agains, hrun⟩, hsends, hunasked, hmax⟩ := hserves
  exact ⟨⟨firsts, agains, hrun.setReady⟩, SendsSegments.event (e := .ready) hsends rfl,
    ⟨hunasked.data, hunasked.retransSec, hunasked.place, hunasked.ended, hunasked.sent⟩, hmax⟩

theorem Serves.setKill (hserves : Serves fhandle size w) : Serves fhandle size w.setKill := by
  obtain ⟨⟨firsts, agains, hrun⟩, hsends, hunasked, hmax⟩ := hserves
  exact ⟨⟨firsts, agains, hrun.setKill⟩, SendsSegments.event (e := .kill) hsends rfl,
    ⟨hunasked.data, hunasked.retransSec, hunasked.place, fun _ => rfl, hunasked.sent⟩, hmax⟩

theorem Serves.step (hserves : Serves fhandle size w) (hstep : w.step msgID = .ok w') :
    Serves fhandle size w' ∧ w'.chan = w.chan := by
  obtain ⟨⟨firsts, agains, hrun⟩, hsends, hunasked, hmax⟩ := hserves
  obtain ⟨next, firsts', agains', hnext, hrun'⟩ := hrun.step msgID
  obtain rfl : next = w' := Except.ok.inj (hnext.symm.trans hstep)
  obtain ⟨hunasked', hchan⟩ := hunasked.step hstep
  refine ⟨⟨⟨firsts', agains', hrun'⟩, hsends.event (e := .step msgID) hstep, hunasked', ?_⟩, hchan⟩
  rw [hchan, hmax]

/-- All that was sent is of the first pass. -/
theorem Serves.firsts (hserves : Serves fhandle size w) :
    ∃ firsts, Running fhandle w firsts [] ∧ w.thread.sent = firsts.map .first := by
  obtain ⟨⟨firsts, agains, hrun⟩, -, hunasked, -⟩ := hserves
  obtain rfl : agains = [] := by
    rw [List.eq_nil_iff_forall_not_mem]
    intro m hm
    have hmem : Sent.again m ∈ w.thread.sent := by
      rw [hrun.sent]
      exact List.mem_append_right _ (List.mem_map_of_mem hm)
    exact Bool.false_ne_true (hunasked.sent _ hmem)
  exact ⟨firsts, hrun, by rw [hrun.sent, List.map_nil, List.append_nil]⟩

/-- No more is sent than the segments and the empty packet behind them. -/
theorem Serves.length_le (hserves : Serves fhandle size w) :
    w.thread.sent.length ≤ fhandle.segments size.toNat + 1 := by
  obtain ⟨firsts, hrun, hsent⟩ := hserves.firsts
  rw [hsent, List.length_map, ← hserves.maxSize]
  exact hrun.within

/-- Each packet verifies, and carries what is returned for its number. -/
theorem Serves.carries (hserves : Serves fhandle size w) (hsmall : size.toNat < 65536) {j : Nat}
    {s : Sent} (hs : w.thread.sent[j]? = some s) :
    Passes s.msg ∧ Arrives s.msg (fhandle.returned size.toNat (j + 1)) := by
  obtain ⟨firsts, hrun, hsent⟩ := hserves.firsts
  rw [hsent, List.getElem?_map, Option.map_eq_some_iff] at hs
  obtain ⟨pck, hpck, rfl⟩ := hs
  have hcarry := firsts_carry hrun hserves.sends (by rwa [hserves.maxSize]) hpck
  rwa [hserves.maxSize] at hcarry

/-- When it has sent them all, a step sends nothing. -/
theorem Serves.step_full (hserves : Serves fhandle size w)
    (hfull : w.thread.sent.length = fhandle.segments size.toNat + 1)
    (hstep : w.step msgID = .ok w') : w'.thread.sent = w.thread.sent := by
  rcases Worker.step_sent hstep with hsame | ⟨s, num, hmore, -⟩
  · exact hsame
  · have hle := (hserves.step hstep).1.length_le
    rw [hmore, List.length_append, List.length_singleton, hfull] at hle
    exact absurd hle (Nat.not_succ_le_self _)

/-- Nor does it while it is joined. -/
theorem Serves.join_full (hserves : Serves fhandle size w)
    (hfull : w.thread.sent.length = fhandle.segments size.toNat + 1) {msgIDs : List UInt32}
    {last : Worker} (hjoin : run Worker.step msgIDs w.setKill = .ok last) :
    last.thread.sent = w.thread.sent := by
  have hstep : ∀ (msgID : UInt32) (v v' : Worker),
      (Serves fhandle size v ∧ v.thread.sent = w.thread.sent) → v.step msgID = .ok v' →
      Serves fhandle size v' ∧ v'.thread.sent = w.thread.sent := by
    rintro msgID v v' ⟨hv, hsame⟩ hstep
    exact ⟨(hv.step hstep).1, (hv.step_full (hsame ▸ hfull) hstep).trans hsame⟩
  exact (run_invariant hstep ⟨hserves.setKill, rfl⟩ hjoin).2

/-- Nothing was deleted from its sections when it ends. -/
theorem Serves.not_endsDrained (hserves : Serves fhandle size w) : ¬ w.EndsDrained := by
  rintro ⟨last, hlast, -, s, hs, hagain⟩
  have hends : Serves fhandle size last :=
    run_invariant (fun _ _ _ hv hstep => (hv.step hstep).1) hserves.setKill hlast
  exact Bool.false_ne_true (hagain.symm.trans (hends.unasked.sent s hs))

/-! ## The thread goes on -/

/-- The steps that a thread has before it sends. -/
def Place.turn : Place → Nat
  | .waiting => 3
  | .loop => 2
  | .relay => 1
  | _ => 0

/-- What a thread has before it until it has sent so many packets. -/
def Worker.left (count : Nat) (w : Worker) : Nat :=
  4 * (count - w.thread.sent.length) + w.thread.place.turn

/-- A thread that was readied and has packets left gets nearer to its last. -/
theorem Serves.advance (hserves : Serves fhandle size w) (hready : w.chan.ready = true)
    (hkill : w.chan.kill = false)
    (hmore : w.thread.sent.length < fhandle.segments size.toNat + 1) (msgID : UInt32) :
    ∃ w', w.step msgID = .ok w' ∧
      w'.left (fhandle.segments size.toNat + 1) < w.left (fhandle.segments size.toNat + 1) := by
  obtain ⟨firsts, hrun, hsent⟩ := hserves.firsts
  have hunasked := hserves.unasked
  obtain ⟨w', -, -, hstep, -⟩ := hrun.step msgID
  refine ⟨w', hstep, ?_⟩
  rw [Worker.step] at hstep
  cases hplace : w.thread.place with
  | waiting =>
      simp only [hplace, hready, Bool.not_true, Bool.false_and, Bool.false_eq_true,
        if_false] at hstep
      cases hstep
      simp [Worker.left, Worker.goto, Place.turn, hplace]
  | loop =>
      simp only [hplace, hkill, Bool.false_eq_true, if_false] at hstep
      cases hstep
      simp [Worker.left, Worker.goto, Place.turn, hplace]
  | relay =>
      simp only [hplace, hunasked.data, Bool.false_eq_true, if_false] at hstep
      cases hstep
      simp [Worker.left, Worker.goto, Place.turn, hplace]
  | add | free | reset =>
      have hrelays := hunasked.place
      rw [hplace] at hrelays
      cases hrelays
  | ended =>
      rw [hunasked.ended hplace] at hkill
      cases hkill
  | branch =>
      rw [hplace] at hstep
      obtain ⟨next, hbranch, hstep⟩ := run_bind_eq_ok.mp hstep
      cases hstep
      rw [hsent, List.length_map] at hmore
      have hmore' : firsts.length < fhandle.segments w.chan.maxSize.toNat + 1 := by
        rwa [hserves.maxSize]
      -- With packets left the first pass is not over.
      have hunfinished : ¬ w.thread.finishedFt = true := fun hfinished =>
        Nat.ne_of_lt hmore' (hrun.finished hfinished)
      obtain ⟨high, hsec, hhigh⟩ := hrun.sendSec
      obtain ⟨sent, hsend, hadvanced⟩ := w.sendNext_spec hrun.opened hsec msgID
      rw [Worker.branch, if_neg hunfinished, hsend, Except.ok.injEq] at hbranch
      subst hbranch
      cases hadvanced with
      | segment m hm hleft =>
          simp only [Worker.left, Worker.goto, Place.turn, List.length_append,
            List.length_singleton, hsent, List.length_map]
          omega
      | finished hover =>
          rw [hhigh] at hover
          exact absurd hover (Nat.not_le.mpr hmore')

end Serves

end Hipft
