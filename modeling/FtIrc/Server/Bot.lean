import FtIrc.Server.CommandOperator

/-!
# The bot

The extension that answers private messages to the nickname it reserves.
-/

namespace FtIrc

variable [Libcpp]

/-- `std::isspace` in the C locale. -/
def isSpaceOctet (c : Octet) : Bool := decide ((9 ≤ c.toNat ∧ c.toNat ≤ 13) ∨ c.toNat = 32)

/-- The first word of a text and, if there is more, the rest of its line. -/
def botWords (text : Str) : Str × Str :=
  let rest := text.dropWhile isSpaceOctet
  let param := (rest.dropWhile fun c => !isSpaceOctet c).dropWhile isSpaceOctet
  (rest.takeWhile fun c => !isSpaceOctet c, param.takeWhile (· != LF))

/-- `Bot::_jokes`. -/
def jokes : List Str :=
  [str "Why do programmers prefer dark mode? Because light attracts bugs.",
    str "There are only 10 types of people in the world: those who understand " ++
      str "binary and those who don't.",
    str "A SQL query walks into a bar, sees two tables and asks: 'Can I JOIN you?'",
    str "Why do Java programmers wear glasses? Because they don't C#.",
    str "!false — It's funny because it's true.",
    str "How many programmers does it take to change a light bulb? None, that's a " ++
      str "hardware problem.",
    str "An IRC user walks into a bar. The bartender says: 'What'll it be?' The " ++
      str "user says: '/quit'.",
    str "Knock knock. Who's there? Recursion. Recursion who? Knock knock."]

/-- `Bot::_jokeCount`. -/
def jokeCount : ℕ := 8

namespace Server

/-- `Bot::reply`. -/
def botReply (s : Server) (sender : ClientId) (text : Str) : Server :=
  s.queueMessage sender
    (str ":" ++ botNickname ++ str " PRIVMSG " ++ (s.deref sender).nickname ++ str " :" ++ text)

/-- `Bot::cmdHelp`. -/
def botHelp (s : Server) (sender : ClientId) : Server :=
  let s := s.botReply sender (str "Available commands:")
  let s := s.botReply sender (str "  !help           - Show this help message")
  let s := s.botReply sender (str "  !time           - Show current server time")
  let s := s.botReply sender (str "  !info [#chan]    - Show server or channel info")
  s.botReply sender (str "  !joke           - Tell a random joke")

/-- `Bot::cmdTime`. -/
def botTime (s : Server) (sender : ClientId) : Server :=
  s.botReply sender (str "Server time: " ++ Libcpp.localTime s.clock)

/-- `Bot::cmdInfo`. -/
def botInfo (s : Server) (sender : ClientId) (param : Str) : Server :=
  if param.head? ≠ some HASH then
    s.botReply sender (str "Server: " ++ SERVER_NAME ++ str " v" ++ SERVER_VERSION)
  else
    match s.findChannel param with
    | none => s.botReply sender (str "Channel " ++ param ++ str " does not exist.")
    | some chan =>
      let t := s.botReply sender (str "Channel " ++ param ++ str ": " ++
        Libcpp.toDecimal (s.channel chan).getMemberCount ++ str " users, modes: " ++
        (s.channel chan).getModeString)
      if (s.channel chan).topic ≠ [] then
        t.botReply sender (str "Topic: " ++ (s.channel chan).topic)
      else t

/-- `Bot::cmdJoke`. -/
def botJoke (s : Server) (sender : ClientId) : Server :=
  let s := s.botReply sender (jokes.getD s.nextJoke [])
  { s with nextJoke := (s.nextJoke + 1) % jokeCount }

/-- `Bot::handleMessage`. -/
def botHandleMessage (s : Server) (sender : ClientId) (text : Str) : Server :=
  if text = [] then s
  else
    let (cmd, param) := botWords text
    if cmd = str "!help" then s.botHelp sender
    else if cmd = str "!time" then s.botTime sender
    else if cmd = str "!info" then s.botInfo sender param
    else if cmd = str "!joke" then s.botJoke sender
    else s.botReply sender (str "Unknown command. Type !help for available commands.")

end Server

end FtIrc
