import FtIrc.Server.State

/-!
# Closing a session

The three ways a client leaves – deferred (`FtIrc.Server.disconnectClient`), at
once (`FtIrc.Server.disconnectClientNow`), and by the deadline of a deferred
close (`FtIrc.Server.finalizeDisconnect`, called by the event loop) – and the
teardown they share.

`teardownClientState` runs the extensions' `onClientDisconnect`, and an extension
may call `disconnectClient` from there. The recursion through the extensions is
given a bound on its nesting; `FtIrc.Server.nesting` is enough for it never to be
felt, since the nested call finds the client tearing down and returns
(`FtIrc.Server.disconnectNested_eq`).
-/

namespace FtIrc

variable [Libcpp]

namespace Server

/-! ### The FILE extension's hooks -/

/-- `FileTransferExt::notice`. -/
def fileNotice (s : Server) (p : ClientId) (text : Str) : Server :=
  s.sendToClient p (str "NOTICE " ++ (s.deref p).nickname ++ str " :" ++ text)

/-- Write to the table of transfers. -/
def updateTransfers (s : Server) (f : OrdMap ℤ Transfer → OrdMap ℤ Transfer) : Server :=
  { s with files := { s.files with transfers := f s.files.transfers } }

/-- A notice to a party of a transfer, if its descriptor still has a client. -/
def noticeFd (s : Server) (fd : Fd) (text : Str) : Server :=
  match s.findClientByFd fd with
  | some p => s.fileNotice p text
  | none => s

/-- `FileTransferExt::abortTransfer`. -/
def abortTransfer (s : Server) (id : ℤ) (why : Str) : Server :=
  match s.files.transfers.get? id with
  | none => s
  | some t =>
    let line := str "FILE ABRT " ++ Libcpp.toDecimal id ++ str " :" ++ why
    let s := s.noticeFd t.senderFd line
    let s := s.noticeFd t.recipientFd line
    s.updateTransfers fun ts => ts.erase id

/-- Abort every transfer that satisfies a test when its turn comes, in increasing
order of the identifiers: the loop of both hooks below. -/
def abortWhere (s : Server) (test : Transfer → Bool) (why : Str) : Server :=
  s.files.transfers.keys.foldl
    (fun s id =>
      match s.files.transfers.get? id with
      | some t => if test t then s.abortTransfer id why else s
      | none => s)
    s

/-- One step of it. -/
def abortOne (s : Server) (test : Transfer → Bool) (why : Str) (id : ℤ) : Server :=
  match s.files.transfers.get? id with
  | some t => if test t then s.abortTransfer id why else s
  | none => s

theorem abortWhere_eq (s : Server) (test : Transfer → Bool) (why : Str) :
    s.abortWhere test why = s.files.transfers.keys.foldl (fun s id => s.abortOne test why id) s := rfl

/-- `FileTransferExt::onClientDisconnect`. -/
def fileOnClientDisconnect (s : Server) (p : ClientId) : Server :=
  let fd := (s.deref p).fd
  s.abortWhere (fun t => decide (t.senderFd = fd ∨ t.recipientFd = fd)) (str "peer disconnected")

/-- `FileTransferExt::IDLE_TIMEOUT`. -/
def IDLE_TIMEOUT : Time := 60

/-- `FileTransferExt::onTick`. -/
def fileOnTick (s : Server) (now : Time) : Server :=
  s.abortWhere (fun t => decide (now - t.lastActivity > IDLE_TIMEOUT)) (str "timeout")

/-! ### Teardown -/

/-- `Client::markTearingDown`. -/
def markTearingDown (p : ClientId) (s : Server) : Server :=
  s.update p fun c => { c with tearingDown := true }

/-- A member leaves a channel, and the channel goes with the last one. -/
def dropMember (s : Server) (fd : Fd) (ch : ChannelRef) : Server :=
  let s := s.updateChannel ch fun chan => chan.removeMember fd
  if (s.channel ch).isEmpty then { s with channels := s.channels.erase ch } else s

/-- What the teardown does to one channel: the invite goes, and a member goes too,
after the other members were told. -/
def teardownChannel (p : ClientId) (quitMsg : Str) (acc : Server × Finset Fd)
    (ch : ChannelRef) : Server × Finset Fd :=
  let fd := (acc.1.deref p).fd
  let s := acc.1.updateChannel ch fun chan => chan.removeInvite fd
  if (s.channel ch).isMember fd then
    let (s, alreadySent) := s.queueOnce (s.channel ch).members.values quitMsg acc.2
    (s.dropMember fd ch, alreadySent)
  else (s, acc.2)

/-- `Server::teardownClientState`, its extensions calling `disconnect`. -/
def teardownClientState (disconnect : Server → Fd → Str → Server) (s : Server) (p : ClientId)
    (reason : Str) : Server :=
  if (s.deref p).tearingDown then s
  else
    let s := markTearingDown p s
    let fd := (s.deref p).fd
    let quitMsg := str ":" ++ (s.deref p).getPrefix ++ str " QUIT :" ++ reason
    let s := (s.channels.keys.foldl (teardownChannel p quitMsg) (s, {fd})).1
    let s := s.fileOnClientDisconnect p
    let s := s.reentrant.foldl (fun s r => disconnect s fd r) s
    s.record (.teardown p)

/-- How a client stands, should its descriptor be closed now. -/
def farewell (s : Server) (p : ClientId) : Farewell :=
  { unsent := Libcpp.hasPending (s.deref p).io
    overflowed := Libcpp.overflowed (s.deref p).io
    waited :=
      if (s.deref p).pendingClose then some (s.clock - (s.deref p).pendingCloseSince) else none }

/-- `Server::finalizeDisconnect`. -/
def finalizeDisconnect (s : Server) (fd : Fd) : Server :=
  match s.clients.get? fd with
  | none => { s with epollMask := s.epollMask.erase fd }
  | some p =>
    ({ s with
        epollMask := s.epollMask.erase fd
        heap := s.heap.erase p
        clients := s.clients.erase fd } : Server).record (.finalized p (s.farewell p))

/-- `Server::disconnectClient`, nested at most so many times. -/
def disconnectNested : ℕ → Server → Fd → Str → Server
  | 0, s, _, _ => s
  | n + 1, s, fd, reason =>
    match s.clients.get? fd with
    | none => s
    | some p =>
      if (s.deref p).tearingDown then s
      else
        let s := teardownClientState (disconnectNested n) s p reason
        if !Libcpp.hasPending (s.deref p).io then s.finalizeDisconnect fd
        else
          (s.update p fun c =>
            { c with pendingClose := true, pendingCloseSince := s.clock }).record (.closing p)

/-- The calls of `disconnectClient` on the stack at one time: the one from outside
and the one from inside the teardown it started. -/
def nesting : ℕ := 2

/-- `Server::disconnectClient`. -/
def disconnectClient (s : Server) (fd : Fd) (reason : Str) : Server :=
  disconnectNested nesting s fd reason

/-- `Server::disconnectClientNow`. -/
def disconnectClientNow (s : Server) (fd : Fd) (reason : Str) : Server :=
  match s.clients.get? fd with
  | none => s
  | some p =>
    if (s.deref p).pendingClose then s.finalizeDisconnect fd
    else if (s.deref p).tearingDown then s
    else (teardownClientState disconnectClient s p reason).finalizeDisconnect fd

end Server

end FtIrc
