import FtIrc.Server.CommandQuery

/-!
# The FILE extension

The offers, answers and chunks of a file transfer between two clients. Its hooks
on disconnects and ticks are in `FtIrc.Server.Disconnect`.
-/

namespace FtIrc

variable [Libcpp]

/-! ### What is checked of the arguments -/

/-- `FileTransferExt::MAX_FILE_SIZE`. -/
def MAX_FILE_SIZE : ℕ := 50 * 1024 * 1024

/-- `FileTransferExt::MAX_CHUNK_B64`. -/
def MAX_CHUNK_B64 : ℕ := 400

/-- `FileTransferExt::MAX_FILENAME`. -/
def MAX_FILENAME : ℕ := 64

/-- `LONG_MAX`. -/
def LONG_MAX : ℤ := 9223372036854775807

/-- `isValidFilename`. -/
def isValidFilename (name : Str) : Bool :=
  decide (name ≠ []) && decide (name.length ≤ MAX_FILENAME) && decide (name ≠ str ".") &&
    decide (name ≠ str "..") &&
    name.all fun c => !(decide (c ≤ SPACE) || c == 0x7F || c == 47 || c == 92 || c == COMMA)

/-- `isBase64Chunk`. -/
def isBase64Chunk (chunk : Str) : Bool :=
  decide (chunk ≠ []) && decide (chunk.length ≤ MAX_CHUNK_B64) &&
    chunk.all fun c => isAlphaOctet c || isDigitOctet c || c == 43 || c == 47 || c == 61

/-- `decodedBytes`. -/
def decodedBytes (chunk : Str) : ℕ :=
  let pad := (if chunk.getLast? = some 61 then 1 else 0) +
    (if chunk.length > 1 ∧ chunk.getD (chunk.length - 2) 0 = 61 then 1 else 0)
  chunk.length * 3 / 4 - pad

/-- `parseId`. -/
def parseId (s : Str) : Option ℤ := Libcpp.parseLong s 1 LONG_MAX

/-- The identifier in the second parameter, in a message of at least so many. -/
def transferId (msg : Message) (least : ℕ) : Option ℤ :=
  if msg.params.length < least then none else parseId (msg.param 1)

namespace Server

/-! ### The subcommands -/

/-- `FileTransferExt::findActive`. -/
def findActive (s : Server) (senderFd recipientFd : Fd) : ℤ :=
  match s.files.transfers.entries.find? fun e =>
      decide (e.2.senderFd = senderFd ∧ e.2.recipientFd = recipientFd) with
  | some e => e.1
  | none => 0

/-- A new entry of the table of transfers, under the next identifier. -/
def addTransfer (s : Server) (t : Transfer) : Server :=
  { s with
    files := { transfers := s.files.transfers.insert s.files.nextId t
               nextId := s.files.nextId + 1 } }

/-- `FileTransferExt::cmdSend`. -/
def fileSend (s : Server) (client : ClientId) (msg : Message) : Server :=
  if msg.params.length < 4 then
    s.fileNotice client (str "FILE SEND usage: FILE SEND <nick> <file> <size>")
  else
    let nick := msg.param 1
    let filename := msg.param 2
    match s.findClientByNick nick with
    | none => s.fileNotice client (str "FILE: no such nick " ++ nick)
    | some recipient =>
      if !(s.deref recipient).registered then
        s.fileNotice client (str "FILE: no such nick " ++ nick)
      else if recipient = client then s.fileNotice client (str "FILE: cannot send to yourself")
      else if !isValidFilename filename then s.fileNotice client (str "FILE: invalid filename")
      else
        match Libcpp.parseUlong (msg.param 3) 1 MAX_FILE_SIZE with
        | none =>
          s.fileNotice client
            (str "FILE: invalid size (1.." ++ Libcpp.toDecimal MAX_FILE_SIZE ++ str ")")
        | some size =>
          if s.findActive (s.deref client).fd (s.deref recipient).fd ≠ 0 then
            s.fileNotice client (str "FILE: a transfer to " ++ nick ++ str " is already active")
          else
            let id := Libcpp.toDecimal s.files.nextId
            let s := s.addTransfer
              { senderFd := (s.deref client).fd, recipientFd := (s.deref recipient).fd
                filename := filename, declaredSize := size, relayedBytes := 0, accepted := false
                lastActivity := s.clock }
            let s := s.queueMessage recipient
              (str ":" ++ (s.deref client).getPrefix ++ str " FILE OFFER " ++ id ++ str " " ++
                filename ++ str " " ++ Libcpp.toDecimal size)
            s.fileNotice client (str "FILE " ++ id ++ str " offered to " ++ nick)

/-- `FileTransferExt::cmdAnswer`. -/
def fileAnswer (s : Server) (client : ClientId) (msg : Message) (accept : Bool) : Server :=
  match transferId msg 2 with
  | none => s.fileNotice client (str "FILE: usage: FILE ACCEPT|REJECT <id>")
  | some id =>
    let unknown := s.fileNotice client (str "FILE: no offer with id " ++ msg.param 1)
    match s.files.transfers.get? id with
    | none => unknown
    | some t =>
      if t.recipientFd ≠ (s.deref client).fd then unknown
      else
        match s.findClientByFd t.senderFd with
        | none =>
          (s.updateTransfers fun ts => ts.erase id).fileNotice client (str "FILE: sender is gone")
        | some sender =>
          let line (word : Str) := str ":" ++ (s.deref client).getPrefix ++ word ++
            Libcpp.toDecimal id
          if accept then
            (s.updateTransfers fun ts => ts.modify id fun t =>
                { t with lastActivity := s.clock, accepted := true }).queueMessage sender
              (line (str " FILE OK "))
          else
            ((s.updateTransfers fun ts => ts.modify id fun t =>
                { t with lastActivity := s.clock }).queueMessage sender
              (line (str " FILE NO "))).updateTransfers fun ts => ts.erase id

/-- `FileTransferExt::cmdData`. -/
def fileData (s : Server) (client : ClientId) (msg : Message) : Server :=
  match transferId msg 3 with
  | none => s.fileNotice client (str "FILE: usage: FILE DATA <id> <base64>")
  | some id =>
    let unknown := s.fileNotice client (str "FILE: no transfer with id " ++ msg.param 1)
    match s.files.transfers.get? id with
    | none => unknown
    | some t =>
      let chunk := msg.param 2
      if t.senderFd ≠ (s.deref client).fd then unknown
      else if !t.accepted then
        s.fileNotice client (str "FILE: transfer " ++ msg.param 1 ++ str " not accepted yet")
      else if !isBase64Chunk chunk then s.abortTransfer id (str "malformed chunk")
      else if decodedBytes chunk = 0 then s.abortTransfer id (str "malformed chunk")
      else if t.relayedBytes + decodedBytes chunk > t.declaredSize then
        s.abortTransfer id (str "size overrun")
      else
        match s.findClientByFd t.recipientFd with
        | none => s.abortTransfer id (str "peer disconnected")
        | some recipient =>
          if (Libcpp.outData (s.deref recipient).io).length > MAX_SENDQ / 2 then
            s.fileNotice client (str "FILE WAIT " ++ msg.param 1)
          else
            (s.updateTransfers fun ts => ts.modify id fun t =>
                { t with relayedBytes := t.relayedBytes + decodedBytes chunk
                         lastActivity := s.clock }).queueMessage recipient
              (str ":" ++ (s.deref client).getPrefix ++ str " FILE DATA " ++ msg.param 1 ++
                str " " ++ chunk)

/-- `FileTransferExt::cmdEnd`. -/
def fileEnd (s : Server) (client : ClientId) (msg : Message) : Server :=
  match transferId msg 2 with
  | none => s.fileNotice client (str "FILE: usage: FILE END <id>")
  | some id =>
    let unknown := s.fileNotice client (str "FILE: no transfer with id " ++ msg.param 1)
    match s.files.transfers.get? id with
    | none => unknown
    | some t =>
      if t.senderFd ≠ (s.deref client).fd then unknown
      else
        let s :=
          match s.findClientByFd t.recipientFd with
          | none => s
          | some recipient =>
            s.queueMessage recipient (str ":" ++ (s.deref client).getPrefix ++ str " FILE END " ++
              msg.param 1 ++ str " " ++ Libcpp.toDecimal t.relayedBytes)
        s.updateTransfers fun ts => ts.erase id

/-- `FileTransferExt::cmdAbort`. -/
def fileAbort (s : Server) (client : ClientId) (msg : Message) : Server :=
  match transferId msg 2 with
  | none => s.fileNotice client (str "FILE: usage: FILE ABORT <id>")
  | some id =>
    let unknown := s.fileNotice client (str "FILE: no transfer with id " ++ msg.param 1)
    match s.files.transfers.get? id with
    | none => unknown
    | some t =>
      if t.senderFd ≠ (s.deref client).fd ∧ t.recipientFd ≠ (s.deref client).fd then unknown
      else s.abortTransfer id (str "aborted by " ++ (s.deref client).nickname)

/-- `FileTransferExt::onCommand`, `none` where it returns `false`. -/
def fileOnCommand (s : Server) (client : ClientId) (msg : Message) : Option Server :=
  if msg.command ≠ str "FILE" then none
  else if msg.params = [] then
    some (s.fileNotice client
      (str "FILE usage: SEND <nick> <file> <size> | ACCEPT/REJECT <id> | " ++
        str "DATA <id> <b64> | END <id> | ABORT <id>"))
  else
    let sub := Libcpp.toUpper (msg.param 0)
    if sub = str "SEND" then some (s.fileSend client msg)
    else if sub = str "ACCEPT" then some (s.fileAnswer client msg true)
    else if sub = str "REJECT" then some (s.fileAnswer client msg false)
    else if sub = str "DATA" then some (s.fileData client msg)
    else if sub = str "END" then some (s.fileEnd client msg)
    else if sub = str "ABORT" then some (s.fileAbort client msg)
    else some (s.fileNotice client (str "FILE: unknown subcommand " ++ sub))

end Server

end FtIrc
