import FtIrc.Server.Disconnect

/-!
# Registration

The commands a connection may send before it is registered: `CAP`, `PASS`,
`NICK` and `USER`, and the completion of a registration that the last two share.
-/

namespace FtIrc

variable [Libcpp]

/-! ### Validity of names -/

/-- The punctuation a nickname may begin with: `[ ] { } \ | ^ _`. -/
def isNickPunctuation (c : Octet) : Bool :=
  c == 91 || c == 93 || c == 123 || c == 125 || c == 92 || c == 124 || c == 94 || c == 95

/-- `Server::isValidNickname`. -/
def isValidNickname (nick : Str) : Bool :=
  match nick with
  | [] => false
  | first :: rest =>
    (isAlphaOctet first || isNickPunctuation first) &&
      rest.all fun c => isAlphaOctet c || isDigitOctet c || isNickPunctuation c || c == 45

/-- `isValidUsernameChar`. -/
def isValidUsernameChar (c : Octet) : Bool :=
  (decide (0x01 ≤ c ∧ c ≤ 0x09)) || (decide (0x0B ≤ c ∧ c ≤ 0x0C)) ||
    (decide (0x0E ≤ c ∧ c ≤ 0x1F)) || (decide (0x21 ≤ c ∧ c ≤ 0x3F)) || decide (0x41 ≤ c)

/-- `isValidUsername`. -/
def isValidUsername (user : Str) : Bool := !user.isEmpty && user.all isValidUsernameChar

/-- `Bot::_nickname`. -/
def botNickname : Str := str "ircbot"

/-- `reservesNick` of the extensions: the bot keeps its own name. -/
def reservesNick (nick : Str) : Bool := Libcpp.eqAsciiNocase nick botNickname

namespace Server

/-! ### The commands -/

/-- `Server::cmdCap`. -/
def cmdCap (s : Server) (client : ClientId) (msg : Message) : Server :=
  if msg.params = [] then s
  else if Libcpp.toUpper (msg.param 0) = str "LS" then
    s.queueMessage client (str ":" ++ SERVER_NAME ++ str " CAP * LS :")
  else s

/-- `Server::cmdPass`. -/
def cmdPass (s : Server) (client : ClientId) (msg : Message) : Server :=
  if (s.deref client).registered then s.sendReply client "462" (str ":You may not reregister")
  else if msg.params = [] then s.sendReply client "461" (str "PASS :Not enough parameters")
  else
    s.update client fun c =>
      { c with
        password := if msg.matched then msg.field "password" else msg.param 0
        passSent := true }

/-- The numerics of a completed registration. -/
def welcomeBurst (s : Server) (client : ClientId) : Server :=
  let prefixText := (s.deref client).getPrefix
  let s := s.sendReply client "001"
    (str ":Welcome to the " ++ SERVER_NAME ++ str " Network " ++ prefixText)
  let s := s.sendReply client "002"
    (str ":Your host is " ++ SERVER_NAME ++ str ", running version " ++ SERVER_VERSION)
  let s := s.sendReply client "003" (str ":This server was created " ++ SERVER_CREATED)
  let s := s.sendReply client "004" (SERVER_NAME ++ str " " ++ SERVER_VERSION ++ str " o itkol")
  let s := s.sendReply client "005"
    (str "CHANTYPES=# PREFIX=(o)@ CHANMODES=,,kl,it " ++
      str "NICKLEN=9 CHANNELLEN=50 TOPICLEN=390 " ++ str "NETWORK=" ++ SERVER_NAME ++
      str " CASEMAPPING=ascii " ++ str ":are supported by this server")
  s.sendReply client "422" (str ":MOTD File is missing")

/-- `Server::completeRegistration`. -/
def completeRegistration (s : Server) (client : ClientId) : Server :=
  if !(s.deref client).passSent ||
      !Libcpp.eqConsttime (s.deref client).password s.password then
    (s.sendReply client "464" (str ":Password incorrect")).disconnectClient
      (s.deref client).fd (str "Password mismatch")
  else (s.update client fun c => { c with registered := true }).welcomeBurst client

/-- `Server::cmdNick`. -/
def cmdNick (s : Server) (client : ClientId) (msg : Message) : Server :=
  if msg.params = [] then s.sendReply client "431" (str ":No nickname given")
  else
    let nick := if msg.matched then msg.field "newnick" else msg.param 0
    if !isValidNickname nick then
      s.sendReply client "432" (nick ++ str " :Erroneous nickname")
    else
      let nick := if nick.length > MAX_NICKLEN then nick.take MAX_NICKLEN else nick
      if s.isNickInUse nick client then
        s.sendReply client "433" (nick ++ str " :Nickname is already in use")
      else if reservesNick nick then
        s.sendReply client "433" (nick ++ str " :Nickname is already in use")
      else if (s.deref client).registered then
        let nickMsg := str ":" ++ (s.deref client).getPrefix ++ str " NICK :" ++ nick
        let s := s.queueMessage client nickMsg
        let s := s.broadcastToChannels client nickMsg
        s.update client fun c => { c with nickname := nick }
      else
        let s := s.update client fun c => { c with nickname := nick, nickSet := true }
        if (s.deref client).userSet then s.completeRegistration client else s

/-- `applyUserModeBitmask`. -/
def applyUserModeBitmask (param : Str) (c : Client) : Client :=
  match Libcpp.parseLong param 0 255 with
  | none => c
  | some bits =>
    let c := if bits.toNat &&& 4 ≠ 0 then { c with wallops := true } else c
    if bits.toNat &&& 8 ≠ 0 then { c with invisible := true } else c

/-- `Server::cmdUser`. -/
def cmdUser (s : Server) (client : ClientId) (msg : Message) : Server :=
  if (s.deref client).registered then s.sendReply client "462" (str ":You may not reregister")
  else if msg.params.length < 4 then
    s.sendReply client "461" (str "USER :Not enough parameters")
  else if if msg.matched then false else decide (msg.trailingIndex ≠ 3) then
    s.sendReply client "461" (str "USER :Not enough parameters")
  else
    let username := if msg.matched then msg.field "username" else msg.param 0
    let username := if username.length > MAX_USERLEN then username.take MAX_USERLEN else username
    if !isValidUsername username then
      s.sendReply client "461" (str "USER :Invalid username")
    else
      let s := s.update client fun c =>
        { applyUserModeBitmask (msg.param 1) { c with username := username } with
          realname := if msg.matched then msg.field "realname" else msg.param 3
          userSet := true }
      if (s.deref client).nickSet then s.completeRegistration client else s

end Server

end FtIrc
