import Hipft.Server.TableRuns

/-! # Rounds of the main loop

In each round the main loop asks which sockets have something, and goes once through its
connections. A connection that ends moves those behind it to the front, so the next one is
passed over; its turn comes in a later round.
-/

namespace Hipft

open CMemory Transitions

/-- What a round of the main loop finds: whether there is an incoming connection, which of
the sockets have something and what `recv_msg` then gives, and which steps the threads do
before the loop comes to an index. -/
structure Select where
  incoming : Option Nat
  ready : Nat → Bool
  received : Nat → Option Msg
  draw : Nat → Draw
  steps : Nat → List (Nat × Nat × UInt32)

/-- The steps of the threads as events. -/
def Select.turns (sel : Select) (i : Nat) : List ServerEvent :=
  (sel.steps i).map fun turn => .step turn.1 turn.2.1 turn.2.2

/-- The event is one that the round finds. -/
def Select.Finds (sel : Select) : ServerEvent → Prop
  | .accept sock => sel.incoming = some sock
  | .receive _ m draw => ∃ sock, sel.ready sock = true ∧ m = sel.received sock ∧
      draw = sel.draw sock
  | .step i j msgID => ∃ k, (i, j, msgID) ∈ sel.steps k

theorem Select.finds_turns (sel : Select) (i : Nat) : ∀ e ∈ sel.turns i, sel.Finds e := by
  intro e he
  obtain ⟨turn, hturn, rfl⟩ := List.mem_map.mp he
  exact ⟨i, hturn⟩

/-- The sockets that are added to the set. -/
def Server.sockets (s : Server) : CRun (List Nat) := do
  let socks ← (List.range s.totalConnections.toNat).mapM fun i => do
    let conn ← slotAt s.conns i
    pure conn.sock
  pure (socks.filter (0 < ·))

section Loop

variable (spare : Nat → Nat) (handles : List FileHandle) (sel : Select)

/-- The loop over the connections from index `i` on, with the sockets that it served. -/
def serve (readfds : List Nat) : Nat → Nat → Server → Run (Server × List Nat)
  | 0, _, _ => .error (.memory .hang)
  | fuel + 1, i, s => do
      let s ← run (Server.event spare handles) (sel.turns i) s
      if i < s.totalConnections.toNat then do
        let conn ← checked (slotAt s.conns i)
        if conn.sock ∈ readfds then do
          let s ← Server.event spare handles
            (.receive i (sel.received conn.sock) (sel.draw conn.sock)) s
          let (s, served) ← serve readfds fuel (i + 1) s
          pure (s, conn.sock :: served)
        else serve readfds fuel (i + 1) s
      else pure (s, [])

/-- One round. A socket that comes in is not among those that `select` looked at. -/
def Server.round (s : Server) : Run (Server × List Nat) := do
  let socks ← checked s.sockets
  let s ← match sel.incoming with
    | some sock => Server.event spare handles (.accept sock) s
    | none => pure s
  serve spare handles sel (socks.filter sel.ready) (s.totalConnections.toNat + 1) 0 s

end Loop

/-! ## The sockets of the table -/

namespace Table

/-- The sockets of the connections. -/
def socks (t : Table) : List Nat := t.map TableEntry.sock

theorem socks_modify {t : Table} {i : Nat} {f : TableEntry → TableEntry}
    (hf : ∀ entry, (f entry).sock = entry.sock) : socks (t.modify i f) = t.socks := by
  apply List.ext_getElem?
  intro j
  rw [socks, socks, List.getElem?_map, List.getElem?_map, List.getElem?_modify]
  split
  next =>
    cases t[j]? with
    | none => rfl
    | some entry => exact congrArg some (hf entry)
  next => simp

theorem socks_handle (handles : List FileHandle) (draw : Draw) (i : Nat) (m : Msg) (t : Table) :
    (t.handle handles draw i m).socks = t.socks ∨
      (t.handle handles draw i m).socks = t.socks.eraseIdx i := by
  rw [handle]
  cases m.request with
  | close => exact .inr (List.eraseIdx_map ..).symm
  | ask =>
      left
      simp only
      split
      next =>
        split
        next => exact socks_modify (TableEntry.ask_sock draw _ m)
        next => rfl
      next => rfl
  | ready => exact .inl (socks_modify (TableEntry.write_sock m _))
  | again => exact .inl (socks_modify (TableEntry.write_sock m _))
  | finish => exact .inl (socks_modify (TableEntry.finish_sock m))
  | unknown => exact .inl rfl

/-- What comes from a connection ends at most this one. -/
theorem socks_receive (handles : List FileHandle) (m : Option Msg) (draw : Draw) (i : Nat)
    (t : Table) : (act handles (.receive i m draw) t).socks = t.socks ∨
      (act handles (.receive i m draw) t).socks = t.socks.eraseIdx i := by
  cases m with
  | none => exact .inr (List.eraseIdx_map ..).symm
  | some m =>
      rw [act]
      split
      next => exact socks_handle handles draw i m t
      next => exact .inl rfl

end Table

/-- Taking out another element moves an element by at most one place. -/
theorem idxOf_eraseIdx {α : Type} [DecidableEq α] {l : List α} {a : α} {i : Nat} (hmem : a ∈ l)
    (hi : ∀ b, l[i]? = some b → b ≠ a) :
    a ∈ l.eraseIdx i ∧
      (l.eraseIdx i).idxOf a = if i < l.idxOf a then l.idxOf a - 1 else l.idxOf a := by
  induction l generalizing i with
  | nil => cases hmem
  | cons b l ih =>
      cases i with
      | zero =>
          have hne : b ≠ a := hi b rfl
          have htail : a ∈ l := (List.mem_cons.mp hmem).resolve_left hne.symm
          rw [List.eraseIdx_cons_zero, List.idxOf_cons_ne _ hne]
          exact ⟨htail, by simp⟩
      | succ i =>
          rw [List.eraseIdx_cons_succ]
          by_cases hba : b = a
          · subst hba
            simp
          · have htail : a ∈ l := (List.mem_cons.mp hmem).resolve_left (Ne.symm hba)
            obtain ⟨hkept, hplace⟩ := ih htail hi
            rw [List.idxOf_cons_ne _ hba, List.idxOf_cons_ne _ hba, hplace]
            refine ⟨List.mem_cons_of_mem _ hkept, ?_⟩
            split
            next hless => rw [if_pos (by omega)]; omega
            next hless => rw [if_neg (by omega)]

/-! ## The loop as events -/

section Sound

variable {spare : Nat → Nat} {handles : List FileHandle} {sel : Select} {s s' : Server}
  {cs : List Connection} {i : Nat}

theorem Server.Sound.socks_length (hsound : s.Sound cs) :
    s.totalConnections.toNat = s.table.socks.length := by
  rw [Table.socks, List.length_map, hsound.filled.totalConnections]

theorem Server.Sound.slotAt_sock (hsound : s.Sound cs) (hi : i < s.totalConnections.toNat) :
    ∃ conn, slotAt s.conns i = .ok conn ∧ s.table.socks[i]? = some conn.sock := by
  rw [hsound.totalConnections] at hi
  refine ⟨cs[i], hsound.toHas.slotAt hi, ?_⟩
  rw [Table.socks, hsound.toHas.table_eq, List.map_map, List.getElem?_map,
    List.getElem?_eq_getElem hi]
  rfl

theorem Server.Sound.sockets_eq (hsound : s.Sound cs) :
    s.sockets = .ok (s.table.socks.filter (0 < ·)) := by
  have hslots : ∀ is : List Nat, (∀ i ∈ is, i < s.totalConnections.toNat) →
      (is.mapM fun i => do
        let conn ← slotAt s.conns i
        pure conn.sock : CRun (List Nat)) = .ok (is.map fun i => s.table.socks.getD i 0) := by
    intro is his
    induction is with
    | nil => rfl
    | cons i is ih =>
        obtain ⟨hi, his⟩ := List.forall_mem_cons.mp his
        obtain ⟨conn, hslot, hsock⟩ := hsound.slotAt_sock hi
        rw [List.mapM_cons, hslot, ok_bind, ih his, List.map_cons, List.getD_eq_getElem?_getD,
          hsock]
        rfl
  rw [Server.sockets, hslots _ fun i hi => List.mem_range.mp hi, ok_bind, hsound.socks_length]
  congr 2
  apply List.ext_getElem?
  intro j
  rw [List.getElem?_map]
  by_cases hj : j < s.table.socks.length
  · rw [List.getElem?_range hj, Option.map_some, List.getD_eq_getElem _ _ hj,
      List.getElem?_eq_getElem hj]
  · rw [List.getElem?_eq_none (by simpa using hj), List.getElem?_eq_none (Nat.not_lt.mp hj)]
    rfl

/-- The threads leave the connections as they are. -/
theorem Server.Sound.turns (hsound : s.Sound cs)
    (hrun : run (Server.event spare handles) (sel.turns i) s = .ok s') :
    (∃ cs', s'.Sound cs') ∧ s'.table.socks = s.table.socks := by
  rw [Select.turns, run_map] at hrun
  have hstep : ∀ (turn : Nat × Nat × UInt32) (now next : Server),
      ((∃ cs, now.Sound cs) ∧ now.table.socks = s.table.socks) →
      Server.event spare handles (.step turn.1 turn.2.1 turn.2.2) now = .ok next →
      (∃ cs, next.Sound cs) ∧ next.table.socks = s.table.socks := by
    rintro turn now next ⟨⟨cs, hsound⟩, hsame⟩ hevent
    refine ⟨hsound.event hevent, ?_⟩
    rw [event_table hsound hevent, ← hsame]
    exact Table.socks_modify fun _ => rfl
  exact run_invariant hstep ⟨⟨cs, hsound⟩, rfl⟩ hrun

/-- What comes from a connection ends at most this one. -/
theorem Server.Sound.receive (hsound : s.Sound cs) {m : Option Msg} {draw : Draw}
    (hevent : Server.event spare handles (.receive i m draw) s = .ok s') :
    (∃ cs', s'.Sound cs') ∧
      (s'.table.socks = s.table.socks ∨ s'.table.socks = s.table.socks.eraseIdx i) := by
  refine ⟨hsound.event hevent, ?_⟩
  rw [event_table hsound hevent]
  exact Table.socks_receive handles m draw i s.table

/-- The loop is a run of events, up to where it ends or crashes. -/
theorem serve_events (hsound : s.Sound cs) {readfds : List Nat}
    (hready : ∀ sock ∈ readfds, sel.ready sock = true) {fuel : Nat} (hpos : 0 < fuel)
    (hfuel : s.table.socks.length < i + fuel) :
    ∃ events, (∀ e ∈ events, sel.Finds e) ∧
      Prod.fst <$> serve spare handles sel readfds fuel i s =
        run (Server.event spare handles) events s := by
  induction fuel generalizing i s cs with
  | zero => exact absurd hpos (Nat.lt_irrefl 0)
  | succ fuel ih =>
      rw [serve]
      have hfinds := sel.finds_turns i
      cases hturns : run (Server.event spare handles) (sel.turns i) s with
      | error crash => exact ⟨sel.turns i, hfinds, hturns.symm⟩
      | ok now =>
          obtain ⟨⟨cs', hsound'⟩, hsame⟩ := hsound.turns hturns
          simp only [run_bind]
          split
          next hi =>
            obtain ⟨conn, hslot, -⟩ := hsound'.slotAt_sock hi
            rw [hsound'.socks_length, hsame] at hi
            rw [hslot, checked_ok, run_bind]
            split
            next hmem =>
              have hreceive : sel.Finds
                  (.receive i (sel.received conn.sock) (sel.draw conn.sock)) :=
                ⟨conn.sock, hready _ hmem, rfl, rfl⟩
              cases hevent : Server.event spare handles
                  (.receive i (sel.received conn.sock) (sel.draw conn.sock)) now with
              | error crash =>
                  refine ⟨sel.turns i ++ [.receive i (sel.received conn.sock)
                    (sel.draw conn.sock)], ?_, ?_⟩
                  · exact List.forall_mem_append.mpr
                      ⟨hfinds, List.forall_mem_singleton.mpr hreceive⟩
                  · rw [run_append hturns, run_cons, hevent]
                    rfl
              | ok next =>
                  obtain ⟨⟨cs'', hsound''⟩, hsocks⟩ := hsound'.receive hevent
                  have hfewer : next.table.socks.length ≤ s.table.socks.length := by
                    rw [← hsame]
                    rcases hsocks with hkept | hended
                    · rw [hkept]
                    · rw [hended]
                      exact List.length_eraseIdx_le _ _
                  obtain ⟨events, hmore, hrest⟩ := ih hsound'' (i := i + 1) (by omega) (by omega)
                  refine ⟨sel.turns i ++ (.receive i (sel.received conn.sock)
                    (sel.draw conn.sock) :: events), ?_, ?_⟩
                  · exact List.forall_mem_append.mpr
                      ⟨hfinds, List.forall_mem_cons.mpr ⟨hreceive, hmore⟩⟩
                  · rw [run_append hturns, run_cons_of_ok hevent, ← hrest]
                    simp only [run_bind, map_bind]
                    cases serve spare handles sel readfds fuel (i + 1) next with
                    | error crash => rfl
                    | ok r => rfl
            next =>
              obtain ⟨events, hmore, hrest⟩ :=
                ih hsound' (i := i + 1) (by omega) (by rw [hsame]; omega)
              refine ⟨sel.turns i ++ events, List.forall_mem_append.mpr ⟨hfinds, hmore⟩, ?_⟩
              rw [run_append hturns, ← hrest]
          next =>
            refine ⟨sel.turns i, hfinds, ?_⟩
            rw [hturns]
            rfl

/-- What the loop from index `i` on does for a socket that has something: it is served, or
its connection is still there and has come closer to the front if the loop had not passed it. -/
def Nears (sock i : Nat) (before after served : List Nat) : Prop :=
  sock ∈ served ∨ sock ∈ after ∧ after.idxOf sock ≤ before.idxOf sock ∧
    (i ≤ before.idxOf sock → after.idxOf sock < before.idxOf sock)

theorem serve_nears (hsound : s.Sound cs) {readfds : List Nat} {sock : Nat}
    (hready : sock ∈ readfds) (hmem : sock ∈ s.table.socks) {fuel : Nat} {served : List Nat}
    (hserve : serve spare handles sel readfds fuel i s = .ok (s', served)) :
    Nears sock i s.table.socks s'.table.socks served := by
  induction fuel generalizing i s cs served with
  | zero => cases hserve
  | succ fuel ih =>
      rw [serve] at hserve
      obtain ⟨now, hturns, hserve⟩ := run_bind_eq_ok.mp hserve
      obtain ⟨⟨cs', hsound'⟩, hsame⟩ := hsound.turns hturns
      rw [← hsame] at hmem ⊢
      split at hserve
      next hi =>
        obtain ⟨conn, hslot, hsock⟩ := hsound'.slotAt_sock hi
        rw [hslot, checked_ok, run_bind] at hserve
        have hhere : now.table.socks.idxOf sock = i → conn.sock = sock := by
          rintro rfl
          rw [List.getElem?_idxOf hmem, Option.some.injEq] at hsock
          exact hsock.symm
        split at hserve
        next =>
          obtain ⟨next, hevent, hserve⟩ := run_bind_eq_ok.mp hserve
          obtain ⟨⟨last, rest⟩, hrest, hserve⟩ := run_bind_eq_ok.mp hserve
          cases hserve
          by_cases hserved : conn.sock = sock
          · exact .inl (hserved ▸ List.mem_cons_self)
          obtain ⟨⟨cs'', hsound''⟩, hsocks⟩ := hsound'.receive hevent
          have hother : ∀ other, now.table.socks[i]? = some other → other ≠ sock := by
            intro other hat
            rw [hsock, Option.some.injEq] at hat
            exact hat ▸ hserved
          have hne : now.table.socks.idxOf sock ≠ i := fun hat => hserved (hhere hat)
          obtain ⟨hkept, hplace⟩ := idxOf_eraseIdx hmem hother
          rcases hsocks with hsocks | hsocks
          · rcases ih hsound'' (hsocks ▸ hmem) hrest with hmore | ⟨hin, hle, hlt⟩
            · exact .inl (List.mem_cons_of_mem _ hmore)
            · rw [hsocks] at hle hlt
              exact .inr ⟨hin, hle, fun hahead => hlt (by omega)⟩
          · rcases ih hsound'' (hsocks ▸ hkept) hrest with hmore | ⟨hin, hle, -⟩
            · exact .inl (List.mem_cons_of_mem _ hmore)
            · -- The connections behind this one have moved to the front.
              rw [hsocks, hplace] at hle
              split at hle
              next hbehind => exact .inr ⟨hin, by omega, fun _ => by omega⟩
              next hbehind => exact .inr ⟨hin, hle, fun hahead => absurd hahead (by omega)⟩
        next hnot =>
          have hne : now.table.socks.idxOf sock ≠ i := fun hat => hnot (hhere hat ▸ hready)
          rcases ih hsound' hmem hserve with hmore | ⟨hin, hle, hlt⟩
          · exact .inl hmore
          · exact .inr ⟨hin, hle, fun hahead => hlt (by omega)⟩
      next hi =>
        cases hserve
        rw [hsound'.socks_length] at hi
        have hplace := List.idxOf_lt_length_of_mem hmem
        exact .inr ⟨hmem, le_rfl, fun hahead => absurd hahead (by omega)⟩

/-- A round is a run of events. -/
theorem Server.Sound.round_events (hsound : s.Sound cs) (spare : Nat → Nat)
    (handles : List FileHandle) (sel : Select) :
    ∃ events, (∀ e ∈ events, sel.Finds e) ∧ Prod.fst <$> s.round spare handles sel =
      run (Server.event spare handles) events s := by
  rw [Server.round, hsound.sockets_eq, checked_ok, run_bind]
  have hready : ∀ sock ∈ List.filter sel.ready (s.table.socks.filter (0 < ·)),
      sel.ready sock = true := fun sock hsock => (List.mem_filter.mp hsock).2
  cases hincoming : sel.incoming with
  | none =>
      simp only [pure_bind]
      refine serve_events hsound hready (Nat.succ_pos _) ?_
      rw [hsound.socks_length]
      omega
  | some sock =>
      simp only
      cases haccept : Server.event spare handles (.accept sock) s with
      | error crash =>
          refine ⟨[.accept sock], List.forall_mem_singleton.mpr hincoming, ?_⟩
          rw [run_cons, haccept]
          rfl
      | ok now =>
          obtain ⟨cs', hsound'⟩ := hsound.event haccept
          obtain ⟨events, hmore, hrest⟩ := serve_events hsound' hready (Nat.succ_pos _)
            (show now.table.socks.length < 0 + (now.totalConnections.toNat + 1) by
              rw [hsound'.socks_length]
              omega)
          refine ⟨.accept sock :: events, List.forall_mem_cons.mpr ⟨hincoming, hmore⟩, ?_⟩
          rw [run_cons_of_ok haccept, ← hrest, run_bind]

/-- A connection that has something is served in this round, or is closer to the front. -/
theorem round_nears (hsound : s.Sound cs) {sock : Nat} (hpos : 0 < sock)
    (hready : sel.ready sock = true) (hmem : sock ∈ s.table.socks) {served : List Nat}
    (hround : s.round spare handles sel = .ok (s', served)) :
    sock ∈ served ∨ sock ∈ s'.table.socks ∧
      s'.table.socks.idxOf sock < s.table.socks.idxOf sock := by
  rw [Server.round, hsound.sockets_eq, checked_ok, run_bind] at hround
  have hreadfds : sock ∈ List.filter sel.ready (s.table.socks.filter (0 < ·)) := by
    rw [List.mem_filter, List.mem_filter]
    exact ⟨⟨hmem, decide_eq_true hpos⟩, hready⟩
  cases hincoming : sel.incoming with
  | none =>
      simp only [hincoming, pure_bind] at hround
      rcases serve_nears hsound hreadfds hmem hround with hserved | ⟨hin, -, hlt⟩
      · exact .inl hserved
      · exact .inr ⟨hin, hlt (Nat.zero_le _)⟩
  | some other =>
      simp only [hincoming] at hround
      obtain ⟨now, haccept, hround⟩ := run_bind_eq_ok.mp hround
      obtain ⟨cs', hsound'⟩ := hsound.event haccept
      have hsocks : now.table.socks = s.table.socks ++ [other] := by
        rw [event_table hsound haccept]
        exact List.map_append
      have hplace : now.table.socks.idxOf sock = s.table.socks.idxOf sock := by
        rw [hsocks, List.idxOf_append_of_mem hmem]
      have hmem' : sock ∈ now.table.socks := hsocks ▸ List.mem_append_left _ hmem
      rcases serve_nears hsound' hreadfds hmem' hround with hserved | ⟨hin, -, hlt⟩
      · exact .inl hserved
      · rw [hplace] at hlt
        exact .inr ⟨hin, hlt (Nat.zero_le _)⟩

theorem Server.Sound.run_events (hsound : s.Sound cs) {events : List ServerEvent}
    (hrun : run (Server.event spare handles) events s = .ok s') : ∃ cs', s'.Sound cs' := by
  have hstep : ∀ e now next, (∃ cs, Server.Sound now cs) →
      Server.event spare handles e now = .ok next → ∃ cs, Server.Sound next cs := by
    rintro e now next ⟨cs, hsound⟩ hevent
    exact hsound.event hevent
  exact run_invariant hstep ⟨cs, hsound⟩ hrun

theorem Server.Sound.round (hsound : s.Sound cs) {served : List Nat}
    (hround : s.round spare handles sel = .ok (s', served)) : ∃ cs', s'.Sound cs' := by
  obtain ⟨events, -, hrun⟩ := hsound.round_events spare handles sel
  rw [hround] at hrun
  exact hsound.run_events hrun.symm

end Sound

/-! ## Round after round -/

/-- One more round, with the sockets that each of them served. -/
def roundStep (spare : Nat → Nat) (handles : List FileHandle) (sel : Select)
    (r : Server × List (List Nat)) : Run (Server × List (List Nat)) := do
  let (s, served) ← r.1.round spare handles sel
  pure (s, r.2 ++ [served])

section Rounds

variable {spare : Nat → Nat} {handles : List FileHandle} {s s' : Server} {cs : List Connection}

theorem Server.Sound.run_rounds (hsound : s.Sound cs) (spare : Nat → Nat)
    (handles : List FileHandle) (sels : List Select) (log : List (List Nat)) :
    ∃ events, (∀ e ∈ events, ∃ sel ∈ sels, sel.Finds e) ∧
      Prod.fst <$> run (roundStep spare handles) sels (s, log) =
        run (Server.event spare handles) events s := by
  induction sels generalizing s cs log with
  | nil => exact ⟨[], List.forall_mem_nil _, rfl⟩
  | cons sel sels ih =>
      obtain ⟨front, hfinds, hfront⟩ := hsound.round_events spare handles sel
      have hfirst : ∀ e ∈ front, ∃ sel' ∈ sel :: sels, sel'.Finds e :=
        fun e he => ⟨sel, List.mem_cons_self, hfinds e he⟩
      rw [run_cons, roundStep]
      cases hround : s.round spare handles sel with
      | error crash =>
          rw [hround] at hfront
          exact ⟨front, hfirst, hfront⟩
      | ok r =>
          obtain ⟨next, served⟩ := r
          rw [hround] at hfront
          obtain ⟨cs', hsound'⟩ := hsound.round hround
          obtain ⟨back, hmore, hback⟩ := ih hsound' (log ++ [served])
          refine ⟨front ++ back, List.forall_mem_append.mpr ⟨hfirst, fun e he => ?_⟩, ?_⟩
          · obtain ⟨later, hlater, hfound⟩ := hmore e he
            exact ⟨later, List.mem_cons_of_mem _ hlater, hfound⟩
          · rw [run_append hfront.symm, ← hback]
            rfl

/-- The main loop does, round after round, what a run of events does that its rounds find: it
ends in the same state or the same crash, and adds no endless loop of its own. -/
theorem rounds_events (spare : Nat → Nat) (handles : List FileHandle) (sels : List Select) :
    ∃ events, (∀ e ∈ events, ∃ sel ∈ sels, sel.Finds e) ∧
      Prod.fst <$> run (roundStep spare handles) sels (Server.start, []) =
        run (Server.event spare handles) events Server.start :=
  server_start_sound.run_rounds spare handles sels []

theorem roundStep_log {sels : List Select} {front log : List (List Nat)}
    (hrun : run (roundStep spare handles) sels (s, front) = .ok (s', log)) :
    ∃ back, front ++ back = log := by
  have hstep : ∀ sel (r r' : Server × List (List Nat)), front <+: r.2 →
      roundStep spare handles sel r = .ok r' → front <+: r'.2 := by
    intro sel r r' hfront hround
    obtain ⟨⟨next, served⟩, -, hround⟩ := run_bind_eq_ok.mp hround
    cases hround
    exact hfront.trans (List.prefix_append _ _)
  exact run_invariant hstep (List.prefix_refl front) hrun

theorem Server.Sound.served_of_ready (hsound : s.Sound cs) {sels : List Select} {sock : Nat}
    (hpos : 0 < sock) (hmem : sock ∈ s.table.socks)
    (hready : ∀ sel ∈ sels, sel.ready sock = true)
    (hmany : s.table.socks.idxOf sock < sels.length) {front log : List (List Nat)}
    (hrun : run (roundStep spare handles) sels (s, front) = .ok (s', log)) :
    ∃ back, front ++ back = log ∧ ∃ served ∈ back, sock ∈ served := by
  induction sels generalizing s cs front with
  | nil => exact absurd hmany (Nat.not_lt_zero _)
  | cons sel sels ih =>
      obtain ⟨_, hstep, hrest⟩ := run_cons_eq_ok.mp hrun
      obtain ⟨⟨next, served⟩, hround, hstep⟩ := run_bind_eq_ok.mp hstep
      cases hstep
      obtain ⟨hhead, htail⟩ := List.forall_mem_cons.mp hready
      rcases round_nears hsound hpos hhead hmem hround with hserved | ⟨hin, hlt⟩
      · obtain ⟨back, rfl⟩ := roundStep_log hrest
        refine ⟨served :: back, by simp, served, List.mem_cons_self, hserved⟩
      · obtain ⟨cs', hsound'⟩ := hsound.round hround
        rw [List.length_cons] at hmany
        obtain ⟨back, rfl, hback⟩ := ih hsound' hin htail (by omega) hrest
        obtain ⟨later, hlater, hserved⟩ := hback
        exact ⟨served :: back, by simp, later, List.mem_cons_of_mem _ hlater, hserved⟩

/-- No connection waits for ever: however many others come, go and are served, one whose
socket has something is served after at most as many rounds as there are connections in front
of it, and one. -/
theorem rounds_serve {before after : List Select} {served : List (List Nat)}
    (hbefore : run (roundStep spare handles) before (Server.start, []) = .ok (s, served))
    {sock : Nat} (hpos : 0 < sock) (hmem : sock ∈ s.table.socks)
    (hready : ∀ sel ∈ after, sel.ready sock = true)
    (hmany : s.table.socks.idxOf sock < after.length) {log : List (List Nat)}
    (hafter : run (roundStep spare handles) after (s, []) = .ok (s', log)) :
    ∃ served ∈ log, sock ∈ served := by
  obtain ⟨events, -, hevents⟩ := server_start_sound.run_rounds spare handles before []
  rw [hbefore] at hevents
  obtain ⟨cs, hsound⟩ := server_start_sound.run_events hevents.symm
  obtain ⟨back, hlog, hserved⟩ := hsound.served_of_ready hpos hmem hready hmany hafter
  rw [List.nil_append] at hlog
  exact hlog ▸ hserved

end Rounds

/-- The client on socket 5 goes, and others ask for a channel. -/
def leaveSelect (incoming : Option Nat) (ready : Bool) : Select where
  incoming := incoming
  ready _ := ready
  received sock := if sock = 5 then none else some (askMsg 100)
  draw _ := ⟨9, 1⟩
  steps _ := []

/-- The first of two connections ends, and the second is passed over for a round. -/
theorem rounds_serve_two :
    ∃ s served s' log,
      run (roundStep oneMore [threeBytes]) [leaveSelect (some 5) false, leaveSelect (some 6) false]
        (Server.start, []) = .ok (s, served) ∧
      run (roundStep oneMore [threeBytes]) [leaveSelect none true, leaveSelect none true] (s, []) =
        .ok (s', log) ∧ ∃ served ∈ log, 6 ∈ served := by
  have hruns : ∃ r, run (roundStep oneMore [threeBytes])
        [leaveSelect (some 5) false, leaveSelect (some 6) false] (Server.start, []) = .ok r ∧
      (6 ∈ r.1.table.socks ∧ r.1.table.socks.idxOf 6 < 2) ∧
      ∃ r', run (roundStep oneMore [threeBytes]) [leaveSelect none true, leaveSelect none true]
        (r.1, []) = .ok r' ∧ r'.2 = [[5], [6]] := by decide +kernel
  obtain ⟨⟨s, served⟩, hbefore, ⟨hmem, hmany⟩, ⟨s', log⟩, hafter, -⟩ := hruns
  refine ⟨s, served, s', log, hbefore, hafter,
    rounds_serve hbefore (by decide) hmem ?_ ?_ hafter⟩
  · intro sel hsel
    simp only [List.mem_cons, List.not_mem_nil, or_false, or_self] at hsel
    rw [hsel]
    rfl
  · exact hmany

end Hipft
