import FtIrc.Server.CommandChannel

/-!
# Operator commands and modes

`KICK`, `INVITE`, `TOPIC` and `MODE`. The two loops over a mode string are
recursions over what is left of it, with the loop variables of the source in
`FtIrc.ModeLoop`.
-/

namespace FtIrc

variable [Libcpp]

/-! ### Mode changes -/

/-- `ModeChange`. -/
structure ModeChange where
  adding : Bool
  letter : Octet
  param : Str := []

/-- `paramsRequiredFrom`, of what is left of a mode string: how many parameters
its letters take at least. -/
def paramsRequiredFrom : Str → Bool → ℕ
  | [], _ => 0
  | c :: rest, adding =>
    if c = 43 then paramsRequiredFrom rest true
    else if c = 45 then paramsRequiredFrom rest false
    else if c = 111 then 1 + paramsRequiredFrom rest adding
    else if (c = 107 ∨ c = 108) ∧ adding = true then 1 + paramsRequiredFrom rest adding
    else paramsRequiredFrom rest adding

/-- A line of mode changes under construction; `sign` is missing while it is
empty. -/
structure ModeLine where
  modes : Str := []
  params : Str := []
  sign : Option Bool := none

namespace ModeLine

/-- One more change on the line. -/
def extend (line : ModeLine) (mc : ModeChange) : ModeLine :=
  { modes := line.modes ++
      (if line.sign ≠ some mc.adding then (if mc.adding then str "+" else str "-") else []) ++
      [mc.letter]
    params :=
      if mc.param ≠ [] then
        (if line.params ≠ [] then line.params ++ str " " else line.params) ++ mc.param
      else line.params
    sign := some mc.adding }

def length (line : ModeLine) (head : Str) : ℕ :=
  head.length + line.modes.length + (if line.params ≠ [] then 1 + line.params.length else 0)

def text (line : ModeLine) (head : Str) : Str :=
  head ++ line.modes ++ (if line.params ≠ [] then str " " ++ line.params else [])

end ModeLine

/-- The rest of the lines of `renderModeLines`, one of them begun. -/
def renderFrom (head : Str) : ModeLine → List ModeChange → List Str
  | line, [] => [line.text head]
  | line, mc :: rest =>
    if (line.extend mc).length head > MAX_MSGLEN - 2 then
      line.text head :: renderFrom head (ModeLine.extend {} mc) rest
    else renderFrom head (line.extend mc) rest

/-- `renderModeLines`: the changes, as many to a line as fit; a line holds at least
one. -/
def renderModeLines (head : Str) : List ModeChange → List Str
  | [] => []
  | mc :: rest => renderFrom head (ModeLine.extend {} mc) rest

/-- `isValidChannelKey`. -/
def isValidChannelKey (key : Str) : Bool :=
  decide (key ≠ []) && decide (key.length ≤ MAX_KEYLEN) &&
    key.all fun c => !(decide (c ≤ SPACE) || c == COMMA)

/-- The variables of the loop over a mode string. -/
structure ModeLoop where
  server : Server
  adding : Bool := true
  /-- The parameters from `paramIdx` on. -/
  params : List Str := []
  applied : List ModeChange := []
  reported : List Str := []

namespace ModeLoop

/-- `if (!alreadyReported(reported, what)) sendReply(client, numeric, params)`. -/
def reportOnce (m : ModeLoop) (what : Str) (client : ClientId) (numeric : String)
    (params : Str) : ModeLoop :=
  if what ∈ m.reported then m
  else
    { m with
      server := m.server.sendReply client numeric params
      reported := m.reported ++ [what] }

/-- A change was made. -/
def apply (m : ModeLoop) (s : Server) (mc : ModeChange) : ModeLoop :=
  { m with server := s, applied := m.applied ++ [mc] }

end ModeLoop

namespace Server

/-! ### KICK, INVITE and TOPIC -/

/-- `Server::cmdKick`. -/
def cmdKick (s : Server) (client : ClientId) (msg : Message) : Server :=
  if !msg.matched then s.sendReply client "461" (str "KICK :Not enough parameters")
  else
    let chanName := msg.field "kickchans"
    let target := msg.field "kickusers"
    let reason :=
      if msg.has "kickreason" then msg.field "kickreason" else (s.deref client).nickname
    match s.findChannel chanName with
    | none => s.sendReply client "403" (chanName ++ str " :No such channel")
    | some chan =>
      if !s.isMember chan client then
        s.sendReply client "442" (chanName ++ str " :You're not on that channel")
      else if !s.isOperator chan client then
        s.sendReply client "482" (chanName ++ str " :You're not channel operator")
      else
        match s.findMember chan target with
        | none =>
          s.sendReply client "441" (target ++ str " " ++ chanName ++
            str " :They aren't on that channel")
        | some targetClient =>
          s.leaveChannel targetClient chan chanName
            (str ":" ++ (s.deref client).getPrefix ++ str " KICK " ++ (s.channel chan).name ++
              str " " ++ (s.deref targetClient).nickname ++ str " :" ++ reason)

/-- `Server::cmdInvite`. -/
def cmdInvite (s : Server) (client : ClientId) (msg : Message) : Server :=
  if !msg.matched then s.sendReply client "461" (str "INVITE :Not enough parameters")
  else
    let target := msg.field "invnick"
    let chanName := msg.field "invchan"
    match s.findChannel chanName with
    | none => s.sendReply client "403" (chanName ++ str " :No such channel")
    | some chan =>
      if !s.isMember chan client then
        s.sendReply client "442" (chanName ++ str " :You're not on that channel")
      else if (s.channel chan).inviteOnly && !s.isOperator chan client then
        s.sendReply client "482" (chanName ++ str " :You're not channel operator")
      else
        match s.findClientByNick target with
        | none => s.sendReply client "401" (target ++ str " :No such nick/channel")
        | some targetClient =>
          if s.isMember chan targetClient then
            s.sendReply client "443" (target ++ str " " ++ chanName ++
              str " :is already on channel")
          else
            let s := s.updateChannel chan fun c => c.addInvite (s.deref targetClient).fd
            let s := s.sendReply client "341" (target ++ str " " ++ chanName)
            s.queueMessage targetClient (str ":" ++ (s.deref client).getPrefix ++
              str " INVITE " ++ target ++ str " :" ++ chanName)

/-- `Server::cmdTopic`. -/
def cmdTopic (s : Server) (client : ClientId) (msg : Message) : Server :=
  if msg.params = [] ∨ msg.param 0 = [] then
    s.sendReply client "461" (str "TOPIC :Not enough parameters")
  else
    let chanName := msg.param 0
    match s.findChannel chanName with
    | none => s.sendReply client "403" (chanName ++ str " :No such channel")
    | some chan =>
      if !s.isMember chan client then
        s.sendReply client "442" (chanName ++ str " :You're not on that channel")
      else if msg.params.length = 1 then
        if (s.channel chan).topic = [] then
          s.sendReply client "331" (chanName ++ str " :No topic is set")
        else
          (s.sendReply client "332" (chanName ++ str " :" ++ (s.channel chan).topic)).sendReply
            client "333" (chanName ++ str " " ++ (s.channel chan).topicSetter ++ str " " ++
              Libcpp.toDecimal (s.channel chan).topicTime)
      else if (s.channel chan).topicRestricted && !s.isOperator chan client then
        s.sendReply client "482" (chanName ++ str " :You're not channel operator")
      else
        let newTopic := if msg.matched then msg.field "topictext" else msg.param 1
        let newTopic := if newTopic.length > MAX_TOPICLEN then newTopic.take MAX_TOPICLEN else newTopic
        let s := s.updateChannel chan fun c => c.setTopic newTopic (s.deref client).nickname s.clock
        s.broadcastMessage chan (str ":" ++ (s.deref client).getPrefix ++ str " TOPIC " ++
          (s.channel chan).name ++ str " :" ++ newTopic) none

/-! ### MODE -/

/-- One letter of a user mode string. -/
def userModeLetter (client : ClientId) (m : ModeLoop) (c : Octet) : ModeLoop :=
  if c = 43 then { m with adding := true }
  else if c = 45 then { m with adding := false }
  else if c = 105 then
    m.apply (m.server.update client fun cl => { cl with invisible := m.adding })
      { adding := m.adding, letter := 105 }
  else if c = 119 then
    m.apply (m.server.update client fun cl => { cl with wallops := m.adding })
      { adding := m.adding, letter := 119 }
  else m.reportOnce (str "501:" ++ [c]) client "501" ([c] ++ str " :is unknown mode char to me")

/-- `Server::handleUserMode`. -/
def handleUserMode (s : Server) (client : ClientId) (msg : Message) : Server :=
  if !Libcpp.eqAsciiNocase (msg.param 0) (s.deref client).nickname then
    s.sendReply client "502" (str ":Can't change mode for other users")
  else if msg.params.length = 1 then s.sendReply client "221" (s.deref client).getUserModeString
  else
    let modeStr := msg.param 1
    if modeStr = [] ∨ (modeStr.head? ≠ some 43 ∧ modeStr.head? ≠ some 45) then s
    else
      let m := modeStr.foldl (userModeLetter client) { server := s }
      let s := m.server
      let head := str ":" ++ (s.deref client).getPrefix ++ str " MODE " ++
        (s.deref client).nickname ++ str " "
      (renderModeLines head m.applied).foldl (fun s line => s.queueMessage client line) s

/-- The mode letter `k`: set or remove the key. -/
def modeKey (client : ClientId) (chan : ChannelRef) (m : ModeLoop) (rest : Str) : ModeLoop :=
  if m.adding then
    match m.params with
    | [] => m.reportOnce (str "461") client "461" (str "MODE :Not enough parameters")
    | key :: params =>
      let m := { m with params := params }
      if !isValidChannelKey key then
        m.reportOnce (str "525:" ++ key) client "525"
          ((m.server.channel chan).name ++ str " :Key is not well-formed")
      else
        m.apply (m.server.updateChannel chan fun c => { c with key := key })
          { adding := true, letter := 107, param := key }
  else
    let s := m.server.updateChannel chan fun c => { c with key := [] }
    match m.params with
    | oldKey :: params =>
      if m.params.length > paramsRequiredFrom rest m.adding then
        { m with params := params }.apply s { adding := false, letter := 107, param := oldKey }
      else m.apply s { adding := false, letter := 107 }
    | [] => m.apply s { adding := false, letter := 107 }

/-- The mode letter `o`: give or take the operator status. -/
def modeOperator (client : ClientId) (chan : ChannelRef) (m : ModeLoop) : ModeLoop :=
  match m.params with
  | [] => m.reportOnce (str "461") client "461" (str "MODE :Not enough parameters")
  | nick :: params =>
    let m := { m with params := params }
    match m.server.findMember chan nick with
    | none =>
      m.reportOnce (str "441:" ++ Libcpp.asciiToLower nick) client "441"
        (nick ++ str " " ++ (m.server.channel chan).name ++ str " :They aren't on that channel")
    | some target =>
      m.apply
        (m.server.updateChannel chan fun c => c.setOperator (m.server.deref target).fd m.adding)
        { adding := m.adding, letter := 111, param := (m.server.deref target).nickname }

/-- The mode letter `l`: set or remove the user limit. -/
def modeLimit (client : ClientId) (chan : ChannelRef) (m : ModeLoop) : ModeLoop :=
  if m.adding then
    match m.params with
    | [] => m.reportOnce (str "461") client "461" (str "MODE :Not enough parameters")
    | limitStr :: params =>
      let m := { m with params := params }
      match Libcpp.parseLong limitStr 1 MAX_USERLIMIT with
      | none =>
        m.reportOnce (str "696:" ++ limitStr) client "696"
          ((m.server.channel chan).name ++ str " l " ++ limitStr ++ str " :Invalid channel limit")
      | some limit =>
        m.apply (m.server.updateChannel chan fun c => { c with userLimit := limit.toNat })
          { adding := true, letter := 108, param := Libcpp.toDecimal limit }
  else
    m.apply (m.server.updateChannel chan fun c => { c with userLimit := 0 })
      { adding := false, letter := 108 }

/-- One letter of a channel mode string, what follows it being `rest`. -/
def channelModeLetter (client : ClientId) (chan : ChannelRef) (m : ModeLoop) (c : Octet)
    (rest : Str) : ModeLoop :=
  if c = 43 then { m with adding := true }
  else if c = 45 then { m with adding := false }
  else if c = 105 then
    m.apply (m.server.updateChannel chan fun ch => { ch with inviteOnly := m.adding })
      { adding := m.adding, letter := 105 }
  else if c = 116 then
    m.apply (m.server.updateChannel chan fun ch => { ch with topicRestricted := m.adding })
      { adding := m.adding, letter := 116 }
  else if c = 107 then modeKey client chan m rest
  else if c = 111 then modeOperator client chan m
  else if c = 108 then modeLimit client chan m
  else m.reportOnce (str "472:" ++ [c]) client "472" ([c] ++ str " :is unknown mode char to me")

/-- The loop of `Server::handleChannelMode`. -/
def channelModeLoop (client : ClientId) (chan : ChannelRef) : ModeLoop → Str → ModeLoop
  | m, [] => m
  | m, c :: rest => channelModeLoop client chan (channelModeLetter client chan m c rest) rest

/-- `Server::handleChannelMode`. -/
def handleChannelMode (s : Server) (client : ClientId) (chan : ChannelRef) (msg : Message) :
    Server :=
  if !s.isMember chan client then
    s.sendReply client "442" ((s.channel chan).name ++ str " :You're not on that channel")
  else if !s.isOperator chan client then
    s.sendReply client "482" ((s.channel chan).name ++ str " :You're not channel operator")
  else
    let modeStr := msg.param 1
    if modeStr = [] ∨ (modeStr.head? ≠ some 43 ∧ modeStr.head? ≠ some 45) then s
    else
      let m := channelModeLoop client chan { server := s, params := msg.params.drop 2 } modeStr
      let s := m.server
      let head := str ":" ++ (s.deref client).getPrefix ++ str " MODE " ++ (s.channel chan).name ++
        str " "
      (renderModeLines head m.applied).foldl (fun s line => s.broadcastMessage chan line none) s

/-- `Server::cmdMode`. -/
def cmdMode (s : Server) (client : ClientId) (msg : Message) : Server :=
  if msg.params = [] ∨ msg.param 0 = [] then
    s.sendReply client "461" (str "MODE :Not enough parameters")
  else
    let target := msg.param 0
    if target.head? = some HASH then
      match s.findChannel target with
      | none => s.sendReply client "403" (target ++ str " :No such channel")
      | some chan =>
        if msg.params.length = 1 then
          if !s.isMember chan client then
            s.sendReply client "442" (target ++ str " :You're not on that channel")
          else
            let params := (s.channel chan).getModeParams
            let reply := target ++ str " " ++ (s.channel chan).getModeString ++
              (if params ≠ [] then str " " ++ params else [])
            (s.sendReply client "324" reply).sendReply client "329"
              (target ++ str " " ++ Libcpp.toDecimal (s.channel chan).creationTime)
        else s.handleChannelMode client chan msg
    else s.handleUserMode client msg

end Server

end FtIrc
