import Hipft.Section.Requests
import Hipft.Server.FirstPass
import Mathlib.Data.Finset.Sort

/-! # Retransmissions

After the first pass the thread sends what is asked for again, the least number
first. Requests come to it through the one message of the channel's record.
-/

namespace Hipft

open CMemory Intervals Transitions

/-! ## Draining the requests -/

/-- The first pass is over, and no request waits in the record. -/
structure Idle (w : Worker) : Prop where
  finished : w.thread.finishedFt = true
  empty : w.chan.data = false

/-- The thread after these requests. -/
def Worker.asked (w : Worker) (rs : List UInt64) : Worker :=
  { w with thread := { w.thread with retransSec := addAll rs } }

/-- Passes without further requests send every requested number once, in ascending order,
and after that nothing. -/
def Drains (w : Worker) (rs : List UInt64) : Prop :=
  ∃ order : List UInt64, order.Pairwise (· < ·) ∧ (∀ v, v ∈ order ↔ v ∈ rs) ∧
    ∀ draws : List UInt32, ∃ (w' : Worker) (agains : List Msg),
      run Worker.pass draws (w.asked rs) = .ok w' ∧
      w'.thread.sent = w.thread.sent ++ agains.map .again ∧
      agains.map (fun m => m.head.segmentNum) = order.take draws.length ∧
      (order.length ≤ draws.length → w'.thread.retransSec = [])

theorem Idle.pass_eq {w : Worker} (hidle : Idle w) (msgID : UInt32) :
    w.pass msgID = w.sendAgain msgID := by
  simp only [Worker.pass, hidle.empty, Bool.false_eq_true, if_false, Worker.branch,
    hidle.finished, if_true]

theorem Idle.pass_nil {w : Worker} (hidle : Idle w) (hsec : w.thread.retransSec = [])
    (msgID : UInt32) : w.pass msgID = .ok w := by
  rw [hidle.pass_eq, Worker.sendAgain, hsec]
  rfl

/-- What a pass does when something is asked for. -/
structure SentAgain (w w' : Worker) (num : UInt64) (m : Msg) : Prop where
  chan : w'.chan = w.chan
  finished : w'.thread.finishedFt = w.thread.finishedFt
  retransSec : w'.thread.retransSec = deleteFromSection num w.thread.retransSec
  sent : w'.thread.sent = w.thread.sent ++ [.again m]

theorem Worker.sendAgain_cons {w : Worker} {fhandle : FileHandle}
    (hopened : w.chan.Opened fhandle) {p : Piece} {rest : Section}
    (hsec : w.thread.retransSec = p :: rest) (msgID : UInt32) :
    ∃ w' m, w.sendAgain msgID = .ok w' ∧ SegmentMsg w.chan fhandle p.lowBound m ∧
      SentAgain w w' p.lowBound m := by
  obtain ⟨m, hsend, hm⟩ := sendSegment_eq hopened msgID p.lowBound
  have hpiece : getPieceInSection w.thread.retransSec 0 = some p := by rw [hsec]; rfl
  have hlow : firstLowInSection w.thread.retransSec = p.lowBound := by rw [hsec]; rfl
  rw [Worker.sendAgain, hpiece]
  simp only [hlow, hsend, run_bind]
  exact ⟨_, m, rfl, hm, ⟨rfl, rfl, rfl, rfl⟩⟩

theorem SentAgain.idle {w w' : Worker} {num : UInt64} {m : Msg} (hagain : SentAgain w w' num m)
    (hidle : Idle w) : Idle w' :=
  ⟨hagain.finished.trans hidle.finished, (congrArg Channel.data hagain.chan).trans hidle.empty⟩

theorem eq_nil_of_not_covers {sec : Section} (hcanonical : Canonical sec)
    (hempty : ∀ v, ¬ Covers sec v) : sec = [] := by
  rw [List.eq_nil_iff_forall_not_mem]
  intro p hp
  exact hempty p.lowBound ⟨p, hp, le_rfl, hcanonical.proper p hp⟩

theorem run_pass_drain {fhandle : FileHandle} {w : Worker} (hidle : Idle w)
    (hopened : w.chan.Opened fhandle) (hcanonical : Canonical w.thread.retransSec)
    {order : List UInt64} (hsorted : order.Pairwise (· < ·))
    (hvalues : ∀ v, v ∈ order ↔ Covers w.thread.retransSec v) (draws : List UInt32) :
    ∃ (w' : Worker) (agains : List Msg), run Worker.pass draws w = .ok w' ∧
      w'.thread.sent = w.thread.sent ++ agains.map .again ∧
      agains.map (fun m => m.head.segmentNum) = order.take draws.length ∧
      (order.length ≤ draws.length → w'.thread.retransSec = []) := by
  induction draws generalizing w order with
  | nil =>
      refine ⟨w, [], rfl, (List.append_nil _).symm, rfl, fun hlength => ?_⟩
      apply eq_nil_of_not_covers hcanonical
      intro v hv
      rw [← hvalues, List.eq_nil_of_length_eq_zero (Nat.le_zero.mp hlength)] at hv
      exact List.not_mem_nil hv
  | cons draw draws ih =>
      cases order with
      | nil =>
          have hsec := eq_nil_of_not_covers hcanonical fun v hv =>
            List.not_mem_nil ((hvalues v).mpr hv)
          rw [run_cons_of_ok (hidle.pass_nil hsec draw)]
          obtain ⟨w', agains, hrun, hsent, hnums, hempty⟩ :=
            ih hidle hopened hcanonical hsorted hvalues
          exact ⟨w', agains, hrun, hsent, by rw [hnums, List.take_nil, List.take_nil],
            fun _ => hempty (Nat.zero_le _)⟩
      | cons v order =>
          obtain ⟨hleast, htail⟩ := List.pairwise_cons.mp hsorted
          have hv := (hvalues v).mp List.mem_cons_self
          obtain ⟨p, rest, hsec⟩ : ∃ p rest, w.thread.retransSec = p :: rest := by
            rw [← List.ne_nil_iff_exists_cons]
            intro hsec
            rw [hsec, covers_nil] at hv
            exact hv
          have hlow : p.lowBound = v := by
            rw [hsec] at hcanonical hvalues hv
            have hproper := (canonical_cons.mp hcanonical).1
            apply le_antisymm (hcanonical.low_le hv)
            rcases List.mem_cons.mp ((hvalues p.lowBound).mpr
              ⟨p, List.mem_cons_self, le_rfl, hproper⟩) with heq | hlater
            · exact heq.ge
            · exact (hleast _ hlater).le
          subst hlow
          obtain ⟨next, m, hpass, hm, hagain⟩ := Worker.sendAgain_cons hopened hsec draw
          rw [← hidle.pass_eq] at hpass
          obtain ⟨hcanonical', hvalues'⟩ := deleteFromSection_spec hcanonical p.lowBound
          rw [← hagain.retransSec] at hcanonical' hvalues'
          have hleft (u : UInt64) : u ∈ order ↔ Covers next.thread.retransSec u := by
            rw [hvalues', ← hvalues, List.mem_cons]
            constructor
            · exact fun hu => ⟨(hleast u hu).ne', .inr hu⟩
            · exact fun hu => hu.2.resolve_left hu.1
          obtain ⟨w', agains, hrun, hsent, hnums, hempty⟩ := ih (hagain.idle hidle)
            (hagain.chan ▸ hopened) hcanonical' htail hleft
          rw [run_cons_of_ok hpass]
          refine ⟨w', m :: agains, hrun, ?_, ?_, fun hlength => ?_⟩
          · rw [hsent, hagain.sent, List.map_cons, List.append_assoc, List.singleton_append]
          · rw [List.map_cons, hnums, hm.segmentNum, List.length_cons, List.take_succ_cons]
          · exact hempty (by simpa using hlength)

/-- Deleting keeps a piece that ends below where it begins. -/
theorem mem_deleteFromSection {sec : Section} {p : Piece} (hp : p ∈ sec)
    (hbroken : p.highBound < p.lowBound) (num : UInt64) : p ∈ deleteFromSection num sec := by
  induction sec with
  | nil => exact hp
  | cons q rest ih =>
      by_cases hcovers : q.lowBound ≤ num ∧ q.highBound ≥ num
      · have hne : p ≠ q := by
          rintro rfl
          exact absurd (hcovers.1.trans hcovers.2) (not_le.mpr hbroken)
        rw [deleteFromSection_cons_covered hcovers.1 hcovers.2]
        exact List.mem_append_right _ ((List.mem_cons.mp hp).resolve_left hne)
      · rw [deleteFromSection, if_neg hcovers]
        rcases List.mem_cons.mp hp with rfl | hrest
        · exact List.mem_cons_self
        · exact List.mem_cons_of_mem _ (ih hrest)

/-- A broken piece is never drained. -/
theorem pass_broken {w w' : Worker} {msgID : UInt32}
    (hbroken : Idle w ∧ ∃ p ∈ w.thread.retransSec, p.highBound < p.lowBound)
    (hpass : w.pass msgID = .ok w') :
    Idle w' ∧ ∃ p ∈ w'.thread.retransSec, p.highBound < p.lowBound := by
  obtain ⟨hidle, p, hp, hlt⟩ := hbroken
  rw [hidle.pass_eq, Worker.sendAgain] at hpass
  cases hpiece : getPieceInSection w.thread.retransSec 0 with
  | none =>
      rw [hpiece] at hpass
      cases hpass
      exact ⟨hidle, p, hp, hlt⟩
  | some piece =>
      simp only [hpiece] at hpass
      obtain ⟨m, -, hpass⟩ := run_bind_eq_ok.mp hpass
      cases hpass
      exact ⟨⟨hidle.finished, hidle.empty⟩, p, mem_deleteFromSection hp hlt _, hlt⟩

theorem not_drains_of_broken {w : Worker} (hidle : Idle w) {rs : List UInt64}
    (hbroken : ∃ p ∈ addAll rs, p.highBound < p.lowBound) : ¬ Drains w rs := by
  rintro ⟨order, -, -, hdraws⟩
  obtain ⟨w', agains, hrun, -, -, hempty⟩ := hdraws (List.replicate order.length 0)
  have hstart : Idle (w.asked rs) ∧ ∃ p ∈ (w.asked rs).thread.retransSec,
      p.highBound < p.lowBound :=
    ⟨⟨hidle.finished, hidle.empty⟩, hbroken⟩
  obtain ⟨-, p, hp, -⟩ := run_invariant (fun _ _ _ hs => pass_broken hs) hstart hrun
  rw [hempty (by rw [List.length_replicate])] at hp
  exact List.not_mem_nil hp

/-- The requests are drained if 0 does not come unprotected behind the largest number. If
it does, and some number is not asked for at all, the thread never stops. -/
theorem drains_iff (w : Worker) (fhandle : FileHandle) (hopened : w.chan.Opened fhandle)
    (hidle : Idle w) (rs : List UInt64) :
    (NoWrap rs → Drains w rs) ∧ ((∃ v, v ∉ rs) → Drains w rs → NoWrap rs) := by
  constructor
  · intro hnowrap
    obtain ⟨hcanonical, hvalues⟩ := addAll_spec hnowrap
    have hsorted := (Finset.sortedLT_sort rs.toFinset).pairwise
    have hmem (v : UInt64) : v ∈ rs.toFinset.sort (· ≤ ·) ↔ v ∈ rs := by
      rw [Finset.mem_sort, List.mem_toFinset]
    refine ⟨rs.toFinset.sort (· ≤ ·), hsorted, hmem, fun draws => ?_⟩
    have hasked : Idle (w.asked rs) := ⟨hidle.finished, hidle.empty⟩
    exact run_pass_drain hasked ⟨hopened.handle, hopened.maxSize⟩ hcanonical hsorted
      (fun v => (hmem v).trans (hvalues v).symm) draws
  · rintro ⟨hole, hhole⟩ hdrains
    by_contra hwrap
    exact not_drains_of_broken hidle (addAll_broken hwrap hhole) hdrains

/-- A channel for a file of three bytes whose first pass is over. -/
def finishedWorker : Worker where
  chan := { sock := 5, selfID := 300, otherID := 100, maxSize := 8
            handle := some threeBytes, data := false, kill := false, ready := true, value := none }
  thread := { place := .loop, finishedFt := true, sendSec := [⟨0, 2⟩], retransSec := []
              sent := [] }

theorem drains_iff_two :
    (NoWrap [3, 1] → Drains finishedWorker [3, 1]) ∧
      ((∃ v : UInt64, v ∉ [3, 1]) → Drains finishedWorker [3, 1] → NoWrap [3, 1]) :=
  drains_iff finishedWorker ⟨[97], [1, 2, 3], by decide⟩ ⟨rfl, by decide⟩ ⟨rfl, rfl⟩ [3, 1]

/-- The largest number and then 0: the two become one piece that is never deleted. -/
theorem drains_iff_wrap : ¬ Drains finishedWorker [uint64Max, 0] :=
  not_drains_of_broken ⟨rfl, rfl⟩ ⟨⟨uint64Max, 0⟩, by decide⟩

/-! ## Requests that come while the thread runs -/

/-- A channel with the numbers that were accepted for it, each with how many messages
the thread had sent by then. -/
structure Requested where
  worker : Worker
  accepted : List (UInt64 × Nat)

/-- The main loop takes a request or readies the channel, or the thread does a turn. -/
inductive RequestEvent
  | request (recvmsg : Msg)
  | ready
  | pass (msgID : UInt32)

def Requested.event : RequestEvent → Requested → Run Requested
  | .request recvmsg, s => pure
      { worker := s.worker.receive recvmsg
        accepted := s.accepted ++ [(recvmsg.head.segmentNum, s.worker.thread.sent.length)] }
  | .ready, s => pure { s with worker := s.worker.setReady }
  | .pass msgID, s =>
      if s.worker.chan.ready then do
        let worker ← s.worker.pass msgID
        pure { s with worker := worker }
      else pure s

/-- The record holds a message that asks for the number. -/
def Worker.InSlot (w : Worker) (num : UInt64) : Prop :=
  w.chan.data = true ∧ ∃ value, w.chan.value = some value ∧ value.head.segmentNum = num

/-- The number was sent again, after that many messages. -/
def Worker.SentSince (w : Worker) (num : UInt64) (count : Nat) : Prop :=
  ∃ m, Sent.again m ∈ w.thread.sent.drop count ∧ m.head.segmentNum = num

/-- Every accepted number is in the record, in the section, or was sent again since. -/
def Requested.NoneLost (s : Requested) : Prop :=
  ∀ num count, (num, count) ∈ s.accepted → s.worker.InSlot num ∨
    Covers s.worker.thread.retransSec num ∨ s.worker.SentSince num count

/-- The number in the record is not lost in the event. -/
def Requested.Careful : RequestEvent → Requested → Prop
  | .request recvmsg, s => ∀ num, s.worker.InSlot num →
      num = recvmsg.head.segmentNum ∨ Covers s.worker.thread.retransSec num
  | .ready, _ => True
  | .pass _, s => ∀ num, s.worker.InSlot num → ¬ Wraps s.worker.thread.retransSec num

/-- What a turn does behind the relay: the section stays, or its first number is sent. -/
inductive Branched (w w' : Worker) : Prop
  | first (hchan : w'.chan = w.chan) (hsec : w'.thread.retransSec = w.thread.retransSec)
      (hsent : w.thread.sent <+: w'.thread.sent)
  | again (m : Msg) (hagain : SentAgain w w' m.head.segmentNum m)

section Branched

variable {fhandle : FileHandle} {w w' : Worker}

theorem Worker.sendNext_first (hopened : w.chan.Opened fhandle) (msgID : UInt32) :
    ∃ w', w.sendNext msgID = .ok w' ∧ Branched w w' := by
  obtain ⟨n, hcount, -⟩ := numSegmentsInFileHandle_eq fhandle hopened.maxSize
  simp only [Worker.sendNext, hopened.handle, deref, run_bind, hcount]
  split
  next =>
    obtain ⟨m, hsend, -⟩ :=
      sendSegment_eq hopened msgID (lastContinualHighInSection w.thread.sendSec + 1)
    simp only [hsend, run_bind]
    exact ⟨_, rfl, .first rfl rfl (List.prefix_append _ _)⟩
  next => exact ⟨_, rfl, .first rfl rfl List.prefix_rfl⟩

theorem Worker.branch_spec (hopened : w.chan.Opened fhandle) (msgID : UInt32) :
    ∃ w', w.branch msgID = .ok w' ∧ Branched w w' := by
  rw [Worker.branch]
  split
  next =>
    cases hsec : w.thread.retransSec with
    | nil =>
        refine ⟨w, ?_, .first rfl rfl List.prefix_rfl⟩
        rw [Worker.sendAgain, hsec]
        rfl
    | cons p rest =>
        obtain ⟨w', m, hsend, hm, hagain⟩ := Worker.sendAgain_cons hopened hsec msgID
        exact ⟨w', hsend, .again m (hm.segmentNum ▸ hagain)⟩
  next => exact Worker.sendNext_first hopened msgID

theorem Branched.chan (hbranched : Branched w w') : w'.chan = w.chan := by
  cases hbranched with
  | first hchan => exact hchan
  | again m hagain => exact hagain.chan

theorem Branched.sent_prefix (hbranched : Branched w w') : w.thread.sent <+: w'.thread.sent := by
  cases hbranched with
  | first hchan hsec hsent => exact hsent
  | again m hagain =>
      rw [hagain.sent]
      exact List.prefix_append _ _

theorem Branched.canonical (hbranched : Branched w w')
    (hcanonical : Canonical w.thread.retransSec) : Canonical w'.thread.retransSec := by
  cases hbranched with
  | first hchan hsec => exact hsec ▸ hcanonical
  | again m hagain =>
      rw [hagain.retransSec]
      exact (deleteFromSection_spec hcanonical _).1

theorem Branched.sentSince (hbranched : Branched w w') {num : UInt64} {count : Nat}
    (hsince : w.SentSince num count) : w'.SentSince num count := by
  obtain ⟨m, hm, hnum⟩ := hsince
  obtain ⟨tail, htail⟩ := hbranched.sent_prefix
  refine ⟨m, ?_, hnum⟩
  rw [← htail, List.drop_append]
  exact List.mem_append_left _ hm

/-- A number that was in the section still is, or has just been sent. -/
theorem Branched.covers (hbranched : Branched w w') (hcanonical : Canonical w.thread.retransSec)
    {num : UInt64} (hcovers : Covers w.thread.retransSec num) {count : Nat}
    (hcount : count ≤ w.thread.sent.length) :
    Covers w'.thread.retransSec num ∨ w'.SentSince num count := by
  cases hbranched with
  | first hchan hsec => exact .inl (hsec ▸ hcovers)
  | again m hagain =>
      by_cases hnum : num = m.head.segmentNum
      · refine .inr ⟨m, ?_, hnum.symm⟩
        rw [hagain.sent, List.drop_append_of_le_length hcount]
        exact List.mem_append_right _ (List.mem_singleton_self _)
      · rw [hagain.retransSec]
        exact .inl (((deleteFromSection_spec hcanonical _).2 num).mpr ⟨hnum, hcovers⟩)

end Branched

/-- What holds between any two events. -/
structure Requested.Sound (fhandle : FileHandle) (s : Requested) : Prop where
  opened : s.worker.chan.Opened fhandle
  canonical : Canonical s.worker.thread.retransSec
  pending : s.worker.chan.data = true → s.worker.chan.value.isSome = true
  counts : ∀ num count, (num, count) ∈ s.accepted → count ≤ s.worker.thread.sent.length
  noneLost : s.NoneLost

section Sound

variable {fhandle : FileHandle} {s : Requested}

theorem Requested.Sound.request (hsound : s.Sound fhandle) {recvmsg : Msg}
    (hcareful : Careful (.request recvmsg) s) :
    ∃ s', Requested.event (.request recvmsg) s = .ok s' ∧ s'.Sound fhandle := by
  refine ⟨_, rfl, ⟨hsound.opened.handle, hsound.opened.maxSize⟩, hsound.canonical, fun _ => rfl,
    fun num count hmem => ?_, fun num count hmem => ?_⟩
  · rcases List.mem_append.mp hmem with hold | hnew
    · exact hsound.counts num count hold
    · cases List.mem_singleton.mp hnew
      exact le_rfl
  · rcases List.mem_append.mp hmem with hold | hnew
    · rcases hsound.noneLost num count hold with hslot | hcovers | hsince
      · rcases hcareful num hslot with rfl | hcovers
        · exact .inl ⟨rfl, recvmsg, rfl, rfl⟩
        · exact .inr (.inl hcovers)
      · exact .inr (.inl hcovers)
      · exact .inr (.inr hsince)
    · cases List.mem_singleton.mp hnew
      exact .inl ⟨rfl, recvmsg, rfl, rfl⟩

/-- Behind the relay nothing is in the record, and what was there is in the section. -/
theorem Worker.pass_spec {w : Worker} (hopened : w.chan.Opened fhandle)
    (hcanonical : Canonical w.thread.retransSec)
    (hpending : w.chan.data = true → w.chan.value.isSome = true)
    (hwrap : ∀ num, w.InSlot num → ¬ Wraps w.thread.retransSec num) (msgID : UInt32) :
    ∃ relayed w', w.pass msgID = .ok w' ∧ Branched relayed w' ∧ relayed.chan.Opened fhandle ∧
      relayed.chan.data = false ∧ relayed.thread.sent = w.thread.sent ∧
      Canonical relayed.thread.retransSec ∧ ∀ num,
        w.InSlot num ∨ Covers w.thread.retransSec num → Covers relayed.thread.retransSec num := by
  by_cases hdata : w.chan.data = true
  · obtain ⟨value, hvalue⟩ := Option.isSome_iff_exists.mp (hpending hdata)
    obtain ⟨hcanonical', hvalues⟩ :=
      addToSection_spec hcanonical (hwrap value.head.segmentNum ⟨hdata, value, hvalue, rfl⟩)
    have hrelayed : (w.relayed value).chan.Opened fhandle := ⟨hopened.handle, hopened.maxSize⟩
    obtain ⟨w', hbranch, hbranched⟩ := Worker.branch_spec hrelayed msgID
    rw [← Worker.pass_eq_relayed hdata hvalue] at hbranch
    refine ⟨_, w', hbranch, hbranched, hrelayed, rfl, rfl, hcanonical', fun num hnum => ?_⟩
    · refine (hvalues num).mpr ?_
      rcases hnum with ⟨-, other, hother, rfl⟩ | hcovers
      · rw [hvalue, Option.some.injEq] at hother
        exact .inl (congrArg (fun m => m.head.segmentNum) hother.symm)
      · exact .inr hcovers
  · obtain ⟨w', hbranch, hbranched⟩ := Worker.branch_spec hopened msgID
    refine ⟨w, w', ?_, hbranched, hopened, Bool.eq_false_iff.mpr hdata, rfl, hcanonical,
      fun num hnum => ?_⟩
    · rw [Worker.pass, if_neg hdata, hbranch]
    · exact hnum.resolve_left fun hslot => hdata hslot.1

theorem Requested.Sound.pass (hsound : s.Sound fhandle) {msgID : UInt32}
    (hcareful : Careful (.pass msgID) s) :
    ∃ s', Requested.event (.pass msgID) s = .ok s' ∧ s'.Sound fhandle := by
  rw [Requested.event]
  split
  next =>
    obtain ⟨relayed, w', hpass, hbranched, hopened, hempty, hsent, hcanonical, hrelayed⟩ :=
      Worker.pass_spec hsound.opened hsound.canonical hsound.pending hcareful msgID
    simp only [hpass, run_bind]
    have hcounts : ∀ num count, (num, count) ∈ s.accepted → count ≤ relayed.thread.sent.length :=
      fun num count hmem => hsent ▸ hsound.counts num count hmem
    refine ⟨_, rfl, ⟨hbranched.chan ▸ hopened, hbranched.canonical hcanonical, fun hdata => ?_,
      fun num count hmem => ?_, fun num count hmem => ?_⟩⟩
    · rw [hbranched.chan, hempty] at hdata
      exact absurd hdata Bool.false_ne_true
    · exact (hcounts num count hmem).trans hbranched.sent_prefix.length_le
    · have hcount := hcounts num count hmem
      rcases hsound.noneLost num count hmem with hslot | hcovers | ⟨m, hm, hnum⟩
      · exact .inr (hbranched.covers hcanonical (hrelayed num (.inl hslot)) hcount)
      · exact .inr (hbranched.covers hcanonical (hrelayed num (.inr hcovers)) hcount)
      · exact .inr (.inr (hbranched.sentSince ⟨m, hsent.symm ▸ hm, hnum⟩))
  next => exact ⟨s, rfl, hsound⟩

end Sound

/-- Requests that take nothing from the record before the thread has it are not lost,
whatever the order of requests and turns. -/
theorem run_noneLost (sock : Nat) (selfID otherID maxSize : UInt64) (fhandle : FileHandle)
    (hsize : maxSize ≠ 0) (events : List RequestEvent)
    (hcareful : Meets Requested.event Requested.Careful events
      ⟨Worker.start sock selfID otherID maxSize fhandle, []⟩) :
    ∃ s, run Requested.event events ⟨Worker.start sock selfID otherID maxSize fhandle, []⟩ =
      .ok s ∧ s.NoneLost := by
  have hstep : ∀ e (s : Requested), s.Sound fhandle → s.Careful e →
      ∃ s', Requested.event e s = .ok s' ∧ s'.Sound fhandle := by
    intro e s hsound hcareful
    cases e with
    | request recvmsg => exact hsound.request hcareful
    | ready =>
        exact ⟨_, rfl, ⟨hsound.opened.handle, hsound.opened.maxSize⟩, hsound.canonical,
          hsound.pending, hsound.counts, hsound.noneLost⟩
    | pass msgID => exact hsound.pass hcareful
  have hstart : Requested.Sound fhandle ⟨Worker.start sock selfID otherID maxSize fhandle, []⟩ :=
    ⟨⟨rfl, hsize⟩, canonical_nil, nofun, nofun, nofun⟩
  obtain ⟨s, hrun, hsound⟩ := run_total_of_meets hstep hstart hcareful
  exact ⟨s, hrun, hsound.noneLost⟩

/-- A client's request for a segment, as `form_msg` makes it. -/
def requestMsg (num : UInt64) : Msg where
  head := formHeader 7 100 300 ChannelType.control.code DataType.rts.code num 0
  body := { content := [], vparityData := List.replicate 4 uint64Max, hparityData := [] }
  trail := formHeader 7 100 300 ChannelType.control.code DataType.rts.code num 0

theorem run_noneLost_repeated :
    ∃ s, run Requested.event
        [.request (requestMsg 2), .ready, .request (requestMsg 2), .pass 9]
        ⟨Worker.start 5 300 100 8 ⟨[97], [1, 2, 3], by decide⟩, []⟩ = .ok s ∧ s.NoneLost := by
  refine run_noneLost 5 300 100 8 ⟨[97], [1, 2, 3], by decide⟩ (by decide) _ ⟨?_, ?_⟩
  · exact fun num hslot => absurd hslot.1 Bool.false_ne_true
  rintro _ ⟨⟩
  refine ⟨trivial, ?_⟩
  rintro _ ⟨⟩
  refine ⟨fun num hslot => .inl ?_, ?_⟩
  · obtain ⟨-, value, hvalue, rfl⟩ := hslot
    cases hvalue
    rfl
  rintro _ ⟨⟩
  exact ⟨fun num _ hwraps => (covers_nil _).mp hwraps.max, fun _ _ => trivial⟩

/-- Two requests between two turns: the record keeps the second only. -/
theorem run_noneLost_overwritten :
    verifyMsg (requestMsg 1) = .ok true ∧ verifyMsg (requestMsg 2) = .ok true ∧
      ∃ s, run Requested.event [.request (requestMsg 1), .request (requestMsg 2)]
        ⟨Worker.start 5 300 100 8 ⟨[97], [1, 2, 3], by decide⟩, []⟩ = .ok s ∧ ¬ s.NoneLost := by
  refine ⟨by decide +kernel, by decide +kernel, _, rfl, fun hnone => ?_⟩
  rcases hnone 1 0 List.mem_cons_self with ⟨-, value, hvalue, hnum⟩ | hcovers | ⟨m, hm, -⟩
  · cases hvalue
    exact absurd hnum (by decide)
  · exact (covers_nil _).mp hcovers
  · exact List.not_mem_nil hm

end Hipft
