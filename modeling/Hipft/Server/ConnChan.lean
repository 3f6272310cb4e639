import Hipft.Foundation.Slots
import Hipft.Server.ChannelThread
import Mathlib.Algebra.BigOperators.Group.List.Basic
import Mathlib.Data.List.Perm.Basic

/-! # Connections and channels

The server keeps its connections in one array of pointers and the channels of a
connection in another. An array with one slot or more grows into an allocation that
is asked for one slot too few; `spare` is what the allocator gives on top of that, for
each number of slots that it is asked for.
-/

namespace Hipft

open CMemory

/-- `connection_t`, but for the address. -/
structure Connection where
  sock : Nat
  numChans : UInt64
  chans : List (Option Worker)
  deriving DecidableEq

/-- `conns`, `totalConnections` and `totalChannels` of the main loop. -/
structure Server where
  conns : List (Option Connection)
  totalConnections : UInt64
  totalChannels : UInt64
  deriving DecidableEq

/-- The server at its start. -/
def Server.start : Server := ⟨[], 0, 0⟩

/-- A connection as `new_connection` leaves it. -/
def Connection.fresh : Connection := ⟨0, 0, []⟩

/-- A channel as `new_channel` leaves it, for a thread that is not yet there. -/
def Worker.fresh : Worker where
  chan := { sock := 0, selfID := 0, otherID := 0, maxSize := 0, handle := none, data := false
            kill := false, ready := false, value := none }
  thread := .start

/-- An allocator that always gives one slot more. -/
def oneMore : Nat → Nat := fun _ => 1

/-- Write to the connection at `index`. -/
def Server.setConn (index : Nat) (conn : Connection) (s : Server) : CRun Server := do
  let conns ← modifyAt s.conns index (Option.map fun _ => conn)
  pure { s with conns }

/-- `new_connection(conns, totalConnections)`. -/
def newConnection (spare : Nat → Nat) (s : Server) : CRun Server := do
  let totalConnections := s.totalConnections + 1
  let count := (totalConnections - 1).toNat
  let conns ← growSlots (spare count) s.conns count .fresh
  pure { s with conns, totalConnections }

/-- `new_channel(conns, totalChannels, conn_index)`. -/
def newChannel (spare : Nat → Nat) (connIndex : Nat) (s : Server) : CRun Server := do
  let conn ← slotAt s.conns connIndex
  let numChans := conn.numChans + 1
  let count := (numChans - 1).toNat
  let chans ← growSlots (spare count) conn.chans count .fresh
  let s ← s.setConn connIndex { conn with numChans, chans }
  pure { s with totalChannels := s.totalChannels + 1 }

/-- `end_channel(conns, totalChannels, conn_index, chan_index)`, what it does to the tables. What
the thread does that is joined meanwhile is `Worker.join`. -/
def endChannel (connIndex chanIndex : Nat) (s : Server) : CRun Server := do
  let conn ← slotAt s.conns connIndex
  let numChans := conn.numChans - 1
  let _ ← slotAt conn.chans chanIndex
  let chans ← shrinkSlots conn.chans numChans.toNat chanIndex
  let s ← s.setConn connIndex { conn with numChans, chans }
  pure { s with totalChannels := s.totalChannels - 1 }

/-- The loop of `end_connection`. -/
def endChannels (index : Nat) : Nat → Server → CRun Server
  | 0, _ => .error .hang
  | fuel + 1, s => do
      let conn ← slotAt s.conns index
      if conn.numChans ≠ 0 then do
        let s ← endChannel index 0 s
        endChannels index fuel s
      else pure s

/-- `end_connection(conns, totalConnections, totalChannels, index)`. -/
def endConnection (index : Nat) (s : Server) : CRun Server := do
  let conn ← slotAt s.conns index
  let s ← endChannels index (conn.numChans.toNat + 1) s
  let _ ← slotAt s.conns index
  let totalConnections := s.totalConnections - 1
  let conns ← shrinkSlots s.conns totalConnections.toNat index
  pure { s with conns, totalConnections }

/-! ## What the arrays hold -/

/-- The connection has these channels. -/
structure Connection.Has (conn : Connection) (ws : List Worker) : Prop where
  chans : Holds conn.chans ws
  numChans : conn.numChans.toNat = ws.length

/-- The server has these connections. -/
structure Server.Has (s : Server) (cs : List Connection) : Prop where
  conns : Holds s.conns cs
  totalConnections : s.totalConnections.toNat = cs.length
  small : cs.length ≤ 2 ^ 60

theorem server_start_has : Server.start.Has [] := ⟨holds_map [], rfl, Nat.zero_le _⟩

theorem connection_fresh_has : Connection.fresh.Has [] := ⟨holds_map [], rfl⟩

section Operations

variable {s : Server} {cs : List Connection}

theorem Server.Has.slotAt (hhas : s.Has cs) {index : Nat} (hindex : index < cs.length) :
    slotAt s.conns index = .ok cs[index] := hhas.conns.slotAt hindex

theorem Server.Has.setConn (hhas : s.Has cs) {index : Nat} (hindex : index < cs.length)
    (conn : Connection) :
    ∃ conns, s.setConn index conn = .ok { s with conns } ∧
      Server.Has { s with conns } (cs.set index conn) := by
  obtain ⟨conns, hmodify, hconns⟩ := hhas.conns.set hindex conn
  refine ⟨conns, ?_, hconns, ?_, ?_⟩
  · rw [Server.setConn, hmodify]
    rfl
  · rw [List.length_set]
    exact hhas.totalConnections
  · rw [List.length_set]
    exact hhas.small

/-- The connection that was written is the one at its index. -/
theorem Connection.Has.at_set {index : Nat} {conn : Connection} {ws : List Worker}
    (hconn : conn.Has ws) (hindex : index < (cs.set index conn).length) :
    (cs.set index conn)[index].Has ws := by
  rw [List.getElem_set_self hindex]
  exact hconn

theorem Server.Has.newConnection (hhas : s.Has cs) {spare : Nat → Nat} {s' : Server}
    (hnew : newConnection spare s = .ok s') :
    s'.Has (cs ++ [.fresh]) ∧ s'.totalChannels = s.totalChannels := by
  rw [Hipft.newConnection, toNat_add_one_sub_one, hhas.totalConnections] at hnew
  obtain ⟨conns, hgrow, hnew⟩ := bind_eq_ok.mp hnew
  obtain ⟨hconns, hsmall⟩ := hhas.conns.growSlots hgrow
  cases hnew
  refine ⟨⟨hconns, ?_, ?_⟩, rfl⟩
  · rw [toNat_add_one (by rw [hhas.totalConnections]; omega), hhas.totalConnections,
      List.length_append, List.length_singleton]
  · rw [List.length_append, List.length_singleton]
    exact hsmall

theorem Server.Has.newConnection_isOk (hhas : s.Has cs) (spare : Nat → Nat) :
    (∃ s', Hipft.newConnection spare s = .ok s') ↔
      cs = [] ∨ 0 < spare cs.length ∧ cs.length < 2 ^ 60 := by
  rw [← hhas.conns.growSlots_isOk (spare _) .fresh]
  simp only [Hipft.newConnection, toNat_add_one_sub_one, hhas.totalConnections, bind_eq_ok]
  constructor
  · rintro ⟨s', conns, hgrow, -⟩
    exact ⟨conns, hgrow⟩
  · rintro ⟨conns, hgrow⟩
    exact ⟨_, conns, hgrow, rfl⟩

variable {ws : List Worker} {index : Nat}

theorem Server.Has.newChannel_isOk (hhas : s.Has cs) (hindex : index < cs.length)
    (hchans : cs[index].Has ws) (spare : Nat → Nat) :
    (∃ s', Hipft.newChannel spare index s = .ok s') ↔
      ws = [] ∨ 0 < spare ws.length ∧ ws.length < 2 ^ 60 := by
  rw [← hchans.chans.growSlots_isOk (spare _) .fresh, Hipft.newChannel, hhas.slotAt hindex, ok_bind]
  simp only [toNat_add_one_sub_one, hchans.numChans, bind_eq_ok]
  constructor
  · rintro ⟨s', chans, hgrow, -⟩
    exact ⟨chans, hgrow⟩
  · rintro ⟨chans, hgrow⟩
    obtain ⟨conns, hset, -⟩ :=
      hhas.setConn hindex { cs[index] with numChans := cs[index].numChans + 1, chans }
    exact ⟨_, chans, hgrow, _, hset, rfl⟩

theorem Server.Has.newChannel (hhas : s.Has cs) (hindex : index < cs.length)
    (hchans : cs[index].Has ws) {spare : Nat → Nat} {s' : Server}
    (hnew : newChannel spare index s = .ok s') :
    ∃ conn, s'.Has (cs.set index conn) ∧ conn.Has (ws ++ [.fresh]) ∧
      conn.sock = cs[index].sock ∧ s'.totalChannels = s.totalChannels + 1 := by
  rw [Hipft.newChannel, hhas.slotAt hindex, ok_bind] at hnew
  simp only [toNat_add_one_sub_one, hchans.numChans] at hnew
  obtain ⟨chans, hgrow, hnew⟩ := bind_eq_ok.mp hnew
  obtain ⟨hholds, hsmall⟩ := hchans.chans.growSlots hgrow
  obtain ⟨conns, hset, hhas'⟩ :=
    hhas.setConn hindex { cs[index] with numChans := cs[index].numChans + 1, chans }
  rw [hset, ok_bind] at hnew
  cases hnew
  refine ⟨_, ⟨hhas'.conns, hhas'.totalConnections, hhas'.small⟩, ⟨hholds, ?_⟩, rfl, rfl⟩
  rw [toNat_add_one (by rw [hchans.numChans]; omega), hchans.numChans, List.length_append,
    List.length_singleton]

theorem Server.Has.endChannel (hhas : s.Has cs) (hindex : index < cs.length)
    (hchans : cs[index].Has ws) (hsmall : ws.length ≤ 2 ^ 60) {chanIndex : Nat}
    (hchan : chanIndex < ws.length) :
    ∃ s' conn, endChannel index chanIndex s = .ok s' ∧ s'.Has (cs.set index conn) ∧
      conn.Has (ws.eraseIdx chanIndex) ∧ conn.sock = cs[index].sock ∧
      conn.numChans = cs[index].numChans - 1 ∧ s'.totalChannels = s.totalChannels - 1 := by
  obtain ⟨count, hcount⟩ : ∃ count, ws.length = count + 1 :=
    Nat.exists_eq_succ_of_ne_zero (Nat.ne_zero_of_lt hchan)
  have hleft : (cs[index].numChans - 1).toNat = count := toNat_sub_one (hcount ▸ hchans.numChans)
  obtain ⟨chans, hshrink, hholds⟩ := hchans.chans.shrinkSlots hchan hcount (by omega)
  obtain ⟨conns, hset, hhas'⟩ :=
    hhas.setConn hindex { cs[index] with numChans := cs[index].numChans - 1, chans }
  refine ⟨{ s with conns, totalChannels := s.totalChannels - 1 }, _, ?_,
    ⟨hhas'.conns, hhas'.totalConnections, hhas'.small⟩, ⟨hholds, ?_⟩, rfl, rfl, rfl⟩
  · rw [Hipft.endChannel, hhas.slotAt hindex, ok_bind]
    simp only [hchans.chans.slotAt hchan, hleft, hshrink, hset, ok_bind]
    rfl
  · rw [List.length_eraseIdx_of_lt hchan, hcount, Nat.add_sub_cancel]
    exact hleft

/-- The channels of a connection end one after the other. -/
theorem Server.Has.endChannels (hhas : s.Has cs) (hindex : index < cs.length)
    (hchans : cs[index].Has ws) (hsmall : ws.length ≤ 2 ^ 60) :
    ∃ s' conn, endChannels index (ws.length + 1) s = .ok s' ∧ s'.Has (cs.set index conn) ∧
      s'.totalChannels = s.totalChannels - cs[index].numChans := by
  induction ws generalizing s cs with
  | nil =>
      have hzero : cs[index].numChans = 0 := UInt64.toNat_inj.mp hchans.numChans
      refine ⟨s, cs[index], ?_, ?_, ?_⟩
      · rw [Hipft.endChannels, hhas.slotAt hindex, ok_bind, if_neg (not_not_intro hzero)]
        rfl
      · rwa [List.set_getElem_self]
      · rw [hzero, UInt64.sub_zero]
  | cons w ws ih =>
      obtain ⟨next, conn, hend, hhas', hchans', -, hless, htotal⟩ :=
        hhas.endChannel hindex hchans hsmall (Nat.zero_lt_succ ws.length)
      -- The loop goes on: the counter is the length of a list that is not empty.
      have hpos : cs[index].numChans ≠ 0 := by
        intro hzero
        have hcount := hchans.numChans
        rw [hzero] at hcount
        exact Nat.succ_ne_zero _ hcount.symm
      have hindex' : index < (cs.set index conn).length := by rwa [List.length_set]
      have hself : (cs.set index conn)[index] = conn := List.getElem_set_self hindex'
      obtain ⟨s', conn', hrest, hhas'', htotal'⟩ :=
        ih hhas' hindex' (hchans'.at_set hindex') (Nat.le_of_succ_le hsmall)
      rw [List.set_set] at hhas''
      refine ⟨s', conn', ?_, hhas'', ?_⟩
      · rw [Hipft.endChannels, hhas.slotAt hindex, ok_bind, if_pos hpos, hend, ok_bind]
        exact hrest
      · rw [htotal', htotal, hself, hless]
        grind

theorem Server.Has.endConnection (hhas : s.Has cs) (hindex : index < cs.length)
    (hchans : cs[index].Has ws) (hsmall : ws.length ≤ 2 ^ 60) :
    ∃ s', endConnection index s = .ok s' ∧ s'.Has (cs.eraseIdx index) ∧
      s'.totalChannels = s.totalChannels - cs[index].numChans := by
  obtain ⟨emptied, conn, hend, hhas', htotal⟩ := hhas.endChannels hindex hchans hsmall
  have hindex' : index < (cs.set index conn).length := by rwa [List.length_set]
  obtain ⟨count, hcount⟩ : ∃ count, cs.length = count + 1 :=
    Nat.exists_eq_succ_of_ne_zero (Nat.ne_zero_of_lt hindex)
  have hlength : (cs.set index conn).length = count + 1 := by rw [List.length_set, hcount]
  have hbound := hhas.small
  have hleft : (emptied.totalConnections - 1).toNat = count :=
    toNat_sub_one (hlength ▸ hhas'.totalConnections)
  obtain ⟨conns, hshrink, hholds⟩ := hhas'.conns.shrinkSlots hindex' hlength (by omega)
  rw [List.eraseIdx_set_eq] at hholds
  refine ⟨{ emptied with conns, totalConnections := emptied.totalConnections - 1 }, ?_,
    ⟨hholds, ?_, ?_⟩, htotal⟩
  · rw [Hipft.endConnection, hhas.slotAt hindex, ok_bind]
    simp only [hchans.numChans, hend, hhas'.slotAt hindex', hleft, hshrink, ok_bind]
    rfl
  · rw [List.length_eraseIdx_of_lt hindex, hcount, Nat.add_sub_cancel]
    exact hleft
  · rw [List.length_eraseIdx_of_lt hindex]
    omega

end Operations

end Hipft
