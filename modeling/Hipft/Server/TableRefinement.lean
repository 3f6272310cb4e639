import Hipft.Server.Capacity
import Hipft.Server.ChannelTable

/-! # The table as a list

Where its arrays have room, the table of connections and channels is a list of lists, and
the calls that change it are operations on that list.
-/

namespace Hipft

open CMemory Transitions

/-- A connection and its channels. -/
structure TableEntry where
  sock : Nat
  chans : List Worker
  deriving DecidableEq

/-- The connections, each with its channels. -/
abbrev Table := List TableEntry

namespace Table

/-- What the calls are for. -/
def call : TableCall → Table → Table
  | .newConnection, t => t ++ [⟨0, []⟩]
  | .newChannel connIndex, t =>
      t.modify connIndex fun entry => { entry with chans := entry.chans ++ [.fresh] }
  | .endChannel connIndex chanIndex, t =>
      t.modify connIndex fun entry => { entry with chans := entry.chans.eraseIdx chanIndex }
  | .endConnection index, t => t.eraseIdx index

/-- The number of channels of all connections. -/
def channels (t : Table) : Nat := (t.map fun entry => entry.chans.length).sum

/-- The array that the call lets grow is empty, or has a slot to spare and is not too long
to grow. -/
def Room (spare : Nat → Nat) : TableCall → Table → Prop
  | .newConnection, t => t = [] ∨ 0 < spare t.length ∧ t.length < 2 ^ 60
  | .newChannel connIndex, t => ∀ entry, t[connIndex]? = some entry →
      entry.chans = [] ∨ 0 < spare entry.chans.length ∧ entry.chans.length < 2 ^ 60
  | .endChannel _ _, _ => True
  | .endConnection _, _ => True

section Channels

variable {t : Table} {index : Nat}

theorem channels_append (t : Table) (entry : TableEntry) :
    channels (t ++ [entry]) = channels t + entry.chans.length := by
  rw [channels, List.map_append, List.sum_append]
  rfl

theorem channels_modify (hindex : index < t.length) (f : TableEntry → TableEntry) :
    channels (t.modify index f) + t[index].chans.length =
      channels t + (f t[index]).chans.length := by
  rw [List.modify_eq_set_get f hindex]
  exact sum_map_set (fun entry => entry.chans.length) hindex _

theorem channels_eraseIdx (hindex : index < t.length) :
    channels (t.eraseIdx index) + t[index].chans.length = channels t :=
  sum_map_eraseIdx (fun entry => entry.chans.length) hindex

end Channels

end Table

/-- What the channels of the connection are. -/
def Connection.entry (conn : Connection) : TableEntry where
  sock := conn.sock
  chans := (conn.chans.take conn.numChans.toNat).filterMap id

/-- The table as a list. -/
def Server.table (s : Server) : Table := s.connections.map Connection.entry

/-- The slots below a counter have their pointers, in arrays that an allocation can give. -/
def Server.Filled (s : Server) : Prop :=
  ∃ cs, s.Has cs ∧ ∀ conn ∈ cs, ∃ ws, conn.Has ws ∧ ws.length ≤ 2 ^ 60

/-- The call, with an allocator that gives so many slots more than it is asked for. -/
def Server.callSpare (spare : Nat → Nat) : TableCall → Server → CRun Server
  | .newConnection => newConnection spare
  | .newChannel connIndex => newChannel spare connIndex
  | .endChannel connIndex chanIndex => Server.call (.endChannel connIndex chanIndex)
  | .endConnection index => Server.call (.endConnection index)

theorem Connection.Has.entry_eq {conn : Connection} {ws : List Worker} (hhas : conn.Has ws) :
    conn.entry = ⟨conn.sock, ws⟩ := by
  rw [Connection.entry, hhas.numChans, hhas.chans.filterMap_take]

section Calls

variable {s s' : Server} {cs : List Connection} {index : Nat}

theorem Server.Has.table_eq (hhas : s.Has cs) : s.table = cs.map Connection.entry := by
  rw [Server.table, hhas.connections_eq]

theorem Server.Has.table_length (hhas : s.Has cs) : s.table.length = cs.length := by
  rw [hhas.table_eq, List.length_map]

theorem Server.Has.getElem_table (hhas : s.Has cs) (hindex : index < s.table.length)
    (hindex' : index < cs.length) : s.table[index] = cs[index].entry := by
  simp only [hhas.table_eq, List.getElem_map]

theorem Server.Filled.totalConnections (hfilled : s.Filled) :
    s.totalConnections.toNat = s.table.length := by
  obtain ⟨cs, hhas, -⟩ := hfilled
  rw [hhas.table_length, hhas.totalConnections]

/-- A connection of the table, with the channels that its entry has. -/
theorem Server.Filled.entry (hfilled : s.Filled) (hindex : index < s.table.length) :
    ∃ (cs : List Connection) (hindex' : index < cs.length), s.Has cs ∧
      (∀ conn ∈ cs, ∃ ws, conn.Has ws ∧ ws.length ≤ 2 ^ 60) ∧
      cs[index].Has s.table[index].chans ∧ s.table[index].chans.length ≤ 2 ^ 60 := by
  obtain ⟨cs, hhas, hchans⟩ := hfilled
  have hindex' : index < cs.length := hhas.table_length ▸ hindex
  obtain ⟨ws, hws, hsmall⟩ := hchans _ (List.getElem_mem hindex')
  have hentry : s.table[index].chans = ws := by
    rw [hhas.getElem_table hindex hindex', hws.entry_eq]
  exact ⟨cs, hindex', hhas, hchans, hentry ▸ hws, hentry ▸ hsmall⟩

theorem Server.Filled.lt_chans (hfilled : s.Filled) {chanIndex : Nat}
    (hindex : index < s.totalConnections.toNat)
    (hchan : ∀ conn, slotAt s.conns index = .ok conn → chanIndex < conn.numChans.toNat) :
    chanIndex < (s.table.get ⟨index, hfilled.totalConnections ▸ hindex⟩).chans.length := by
  have hlength := hfilled.totalConnections
  obtain ⟨cs, hindex', hhas, -, hws, -⟩ := hfilled.entry (hlength ▸ hindex)
  rw [List.get_eq_getElem, ← hws.numChans]
  exact hchan _ (hhas.slotAt hindex')

/-- From `s` to `s'` the table has changed as the list does with the call. -/
structure Refines (call : TableCall) (s s' : Server) : Prop where
  filled : s'.Filled
  table : s'.table = Table.call call s.table
  totalChannels : s'.totalChannels + UInt64.ofNat s.table.channels =
    s.totalChannels + UInt64.ofNat s'.table.channels

/-! ## The calls -/

theorem Server.Filled.newConnection (hfilled : s.Filled) {spare : Nat → Nat}
    (hnew : newConnection spare s = .ok s') : Refines .newConnection s s' := by
  obtain ⟨cs, hhas, hchans⟩ := hfilled
  obtain ⟨hhas', htotal⟩ := hhas.newConnection hnew
  have htable : s'.table = s.table ++ [⟨0, []⟩] := by
    rw [hhas'.table_eq, hhas.table_eq, List.map_append]
    rfl
  refine ⟨⟨_, hhas', ?_⟩, htable, ?_⟩
  · exact List.forall_mem_append.mpr ⟨hchans, List.forall_mem_singleton.mpr
      ⟨[], connection_fresh_has, Nat.zero_le _⟩⟩
  · rw [htable, Table.channels_append, htotal]
    rfl

/-- A connection with other channels in the place of one. -/
theorem Server.Filled.set (hhas : s.Has cs)
    (hchans : ∀ conn ∈ cs, ∃ ws, conn.Has ws ∧ ws.length ≤ 2 ^ 60) (hindex : index < cs.length)
    {conn : Connection} {ws : List Worker} (hhas' : s'.Has (cs.set index conn))
    (hconn : conn.Has ws) (hsmall : ws.length ≤ 2 ^ 60) (hsock : conn.sock = cs[index].sock)
    {f : List Worker → List Worker} (hf : f cs[index].entry.chans = ws) :
    s'.Filled ∧
      s'.table = s.table.modify index (fun entry => { entry with chans := f entry.chans }) := by
  constructor
  · refine ⟨_, hhas', fun other hother => ?_⟩
    rcases List.mem_or_eq_of_mem_set hother with hold | rfl
    · exact hchans other hold
    · exact ⟨ws, hconn, hsmall⟩
  · have hindex' : index < (cs.map Connection.entry).length := by rwa [List.length_map]
    rw [hhas'.table_eq, hhas.table_eq, List.modify_eq_set_get _ hindex', List.map_set,
      List.get_eq_getElem, List.getElem_map, hf, hconn.entry_eq, hsock]
    rfl

theorem Server.Filled.newChannel (hfilled : s.Filled) (hindex : index < s.table.length)
    {spare : Nat → Nat} (hnew : newChannel spare index s = .ok s') :
    Refines (.newChannel index) s s' := by
  obtain ⟨cs, hindex', hhas, hchans, hws, -⟩ := hfilled.entry hindex
  obtain ⟨conn, hhas', hconn, hsock, htotal⟩ := hhas.newChannel hindex' hws hnew
  have hsmall : (s.table[index].chans ++ [Worker.fresh]).length ≤ 2 ^ 60 := by
    rw [List.length_append, List.length_singleton]
    rcases (hhas.newChannel_isOk hindex' hws spare).mp ⟨s', hnew⟩ with hnil | ⟨-, hroom⟩
    · rw [hnil]
      exact Nat.one_le_two_pow
    · exact hroom
  obtain ⟨hfilled', htable⟩ := Server.Filled.set hhas hchans hindex' hhas' hconn hsmall hsock
    (f := fun chans => chans ++ [.fresh]) (by rw [hws.entry_eq])
  refine ⟨hfilled', htable, ?_⟩
  have hcount := Table.channels_modify hindex
    fun entry => { entry with chans := entry.chans ++ [.fresh] }
  rw [← htable, List.length_append, List.length_singleton] at hcount
  have hmore : s'.table.channels = s.table.channels + 1 := by omega
  rw [htotal, hmore, UInt64.ofNat_add]
  grind

theorem Server.Filled.endChannel (hfilled : s.Filled) (hindex : index < s.table.length)
    {chanIndex : Nat} (hchan : chanIndex < s.table[index].chans.length) :
    ∃ s', endChannel index chanIndex s = .ok s' ∧ Refines (.endChannel index chanIndex) s s' := by
  obtain ⟨cs, hindex', hhas, hchans, hws, hsmall⟩ := hfilled.entry hindex
  obtain ⟨s', conn, hend, hhas', hconn, hsock, -, htotal⟩ :=
    hhas.endChannel hindex' hws hsmall hchan
  obtain ⟨hfilled', htable⟩ := Server.Filled.set hhas hchans hindex' hhas' hconn
    ((List.length_eraseIdx_le _ _).trans hsmall) hsock (f := fun chans => chans.eraseIdx chanIndex)
    (by rw [hws.entry_eq])
  refine ⟨s', hend, hfilled', htable, ?_⟩
  have hcount := Table.channels_modify hindex
    fun entry => { entry with chans := entry.chans.eraseIdx chanIndex }
  rw [← htable, List.length_eraseIdx_of_lt hchan] at hcount
  have hless : s.table.channels = s'.table.channels + 1 := by omega
  rw [htotal, hless, UInt64.ofNat_add]
  grind

theorem Server.Filled.endConnection (hfilled : s.Filled) (hindex : index < s.table.length) :
    ∃ s', endConnection index s = .ok s' ∧ Refines (.endConnection index) s s' := by
  obtain ⟨cs, hindex', hhas, hchans, hws, hsmall⟩ := hfilled.entry hindex
  obtain ⟨s', hend, hhas', htotal⟩ := hhas.endConnection hindex' hws hsmall
  have htable : s'.table = s.table.eraseIdx index := by
    rw [hhas'.table_eq, hhas.table_eq, List.eraseIdx_map]
  refine ⟨s', hend, ⟨_, hhas', fun conn hconn => hchans conn (List.mem_of_mem_eraseIdx hconn)⟩,
    htable, ?_⟩
  have hcount := Table.channels_eraseIdx hindex
  rw [← htable, ← hws.numChans] at hcount
  rw [htotal, ← hcount, UInt64.ofNat_add, UInt64.ofNat_toNat]
  grind

/-- A call that returns has done to the table what it is for. -/
theorem Server.Filled.refines (hfilled : s.Filled) {call : TableCall} (hvalid : s.Valid call)
    {spare : Nat → Nat} (hcall : Server.callSpare spare call s = .ok s') : Refines call s s' := by
  have hlength := hfilled.totalConnections
  cases call with
  | newConnection => exact hfilled.newConnection hcall
  | newChannel connIndex => exact hfilled.newChannel (hlength ▸ hvalid) hcall
  | endChannel connIndex chanIndex =>
      obtain ⟨hindex, hchan⟩ := hvalid
      obtain ⟨ended, hend, hrefines⟩ :=
        hfilled.endChannel (hlength ▸ hindex) (hfilled.lt_chans hindex hchan)
      rw [Server.callSpare, Server.call, hend, Except.ok.injEq] at hcall
      exact hcall ▸ hrefines
  | endConnection index =>
      have hindex : index < s.totalConnections.toNat := hvalid
      obtain ⟨ended, hend, hrefines⟩ := hfilled.endConnection (hlength ▸ hindex)
      rw [Server.callSpare, Server.call, hend, Except.ok.injEq] at hcall
      exact hcall ▸ hrefines

/-- A call returns where its array has room. -/
theorem Server.Filled.callSpare_isOk (hfilled : s.Filled) {call : TableCall}
    (hvalid : s.Valid call) (spare : Nat → Nat) :
    (∃ s', Server.callSpare spare call s = .ok s') ↔ Table.Room spare call s.table := by
  have hlength := hfilled.totalConnections
  cases call with
  | newConnection =>
      obtain ⟨cs, hhas, -⟩ := hfilled
      rw [Server.callSpare, hhas.newConnection_isOk, Table.Room, hhas.table_length, hhas.table_eq,
        List.map_eq_nil_iff]
  | newChannel connIndex =>
      obtain ⟨cs, hhas, hchans⟩ := hfilled
      have hindex : connIndex < cs.length := hhas.totalConnections ▸ hvalid
      obtain ⟨ws, hws, -⟩ := hchans _ (List.getElem_mem hindex)
      rw [Server.callSpare, hhas.newChannel_isOk hindex hws, Table.Room, hhas.table_eq,
        List.getElem?_map, List.getElem?_eq_getElem hindex]
      simp only [Option.map_some, Option.some.injEq, forall_eq', hws.entry_eq]
  | endChannel connIndex chanIndex =>
      obtain ⟨hindex, hchan⟩ := hvalid
      obtain ⟨ended, hend, -⟩ :=
        hfilled.endChannel (hlength ▸ hindex) (hfilled.lt_chans hindex hchan)
      exact iff_of_true ⟨ended, hend⟩ trivial
  | endConnection index =>
      have hindex : index < s.totalConnections.toNat := hvalid
      obtain ⟨ended, hend, -⟩ := hfilled.endConnection (hlength ▸ hindex)
      exact iff_of_true ⟨ended, hend⟩ trivial

end Calls

/-! ## The table and the list -/

/-- Where the indices of a call are valid, it returns exactly when its array has room, and
then has done to the table what it does to the list. The counter of connections is the
length of the list before and after, and that of channels changes as their number does. -/
theorem table_refines {s : Server} (hfilled : s.Filled) {call : TableCall}
    (hvalid : s.Valid call) (spare : Nat → Nat) :
    ((∃ s', Server.callSpare spare call s = .ok s') ↔ Table.Room spare call s.table) ∧
      ∀ s', Server.callSpare spare call s = .ok s' →
        s'.Filled ∧ s'.table = Table.call call s.table ∧
        s.totalConnections.toNat = s.table.length ∧
        s'.totalConnections.toNat = s'.table.length ∧
        s'.totalChannels + UInt64.ofNat s.table.channels =
          s.totalChannels + UInt64.ofNat s'.table.channels := by
  refine ⟨hfilled.callSpare_isOk hvalid spare, ?_⟩
  intro s' hcall
  obtain ⟨hfilled', htable, htotal⟩ := hfilled.refines hvalid hcall
  exact ⟨hfilled', htable, hfilled.totalConnections, hfilled'.totalConnections, htotal⟩

/-- Two connections, the first with two channels. -/
def twoConnections : Server where
  conns := [some ⟨7, 2, [some .fresh, some .fresh]⟩, some ⟨8, 0, []⟩]
  totalConnections := 2
  totalChannels := 2

theorem twoConnections_filled : twoConnections.Filled := by
  refine ⟨[⟨7, 2, [some .fresh, some .fresh]⟩, ⟨8, 0, []⟩], ⟨⟨[], rfl⟩, rfl, by decide⟩, ?_⟩
  simp only [List.forall_mem_cons]
  exact ⟨⟨[.fresh, .fresh], ⟨⟨[], rfl⟩, rfl⟩, by decide⟩, ⟨[], ⟨⟨[], rfl⟩, rfl⟩, by decide⟩,
    List.forall_mem_nil _⟩

/-- The first of two connections is ended. -/
theorem table_refines_two :
    ((∃ s', Server.callSpare (fun _ => 0) (.endConnection 0) twoConnections = .ok s') ↔
        Table.Room (fun _ => 0) (.endConnection 0) twoConnections.table) ∧
      ∀ s', Server.callSpare (fun _ => 0) (.endConnection 0) twoConnections = .ok s' →
        s'.Filled ∧ s'.table = Table.call (.endConnection 0) twoConnections.table ∧
        twoConnections.totalConnections.toNat = twoConnections.table.length ∧
        s'.totalConnections.toNat = s'.table.length ∧
        s'.totalChannels + UInt64.ofNat twoConnections.table.channels =
          twoConnections.totalChannels + UInt64.ofNat s'.table.channels := by
  have hvalid : twoConnections.Valid (.endConnection 0) := by
    rw [Server.Valid]
    decide
  exact table_refines twoConnections_filled hvalid 0

/-- From the start of the server, however the allocator rounds, calls make the table that
they make of the empty list, and the counters count it. -/
theorem calls_refine {calls : List (Nat × TableCall)} {s : Server}
    (hvalid : Meets (fun e => Server.callSpare e.1 e.2) (fun e s => s.Valid e.2) calls Server.start)
    (hrun : run (fun e => Server.callSpare e.1 e.2) calls Server.start = .ok s) :
    s.table = calls.foldl (fun t e => Table.call e.2 t) [] ∧
      s.totalConnections.toNat = s.table.length ∧
      s.totalChannels = UInt64.ofNat s.table.channels := by
  have hstep : ∀ (e : Nat × TableCall) (s s' : Server),
      (s.Filled ∧ s.totalChannels = UInt64.ofNat s.table.channels) → s.Valid e.2 →
      Server.callSpare e.1 e.2 s = .ok s' →
      (s'.Filled ∧ s'.totalChannels = UInt64.ofNat s'.table.channels) ∧
        s'.table = Table.call e.2 s.table := by
    rintro e s s' ⟨hfilled, hcounted⟩ hvalid hcall
    obtain ⟨hfilled', htable, htotal⟩ := hfilled.refines hvalid hcall
    refine ⟨⟨hfilled', ?_⟩, htable⟩
    rw [hcounted] at htotal
    grind
  have hstart : Server.start.Filled ∧
      Server.start.totalChannels = UInt64.ofNat Server.start.table.channels :=
    ⟨⟨[], server_start_has, List.forall_mem_nil _⟩, rfl⟩
  obtain ⟨⟨hfilled, hcounted⟩, htable⟩ := run_refines hstep hstart hvalid hrun
  exact ⟨htable, hfilled.totalConnections, hcounted⟩

end Hipft
