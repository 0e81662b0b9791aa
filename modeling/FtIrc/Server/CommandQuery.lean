import FtIrc.Server.CommandMessaging

/-!
# Queries

`WHO`, `WHOIS` and `USERHOST`: they read the tables and answer the client that
asked.
-/

namespace FtIrc

variable [Libcpp]

namespace Server

/-- `Server::cmdWho`. -/
def cmdWho (s : Server) (client : ClientId) (msg : Message) : Server :=
  if msg.params = [] ∨ msg.param 0 = [] then s.sendReply client "315" (str "* :End of WHO list")
  else
    let target := msg.param 0
    let ending := target ++ str " :End of WHO list"
    if target.head? = some HASH then
      match s.findChannel target with
      | none => s.sendReply client "315" ending
      | some chan =>
        let s := (s.channel chan).members.values.foldl
          (fun s m =>
            let c := s.deref m
            let flags := str "H" ++ (if s.isOperator chan m then str "@" else [])
            s.sendReply client "352" (target ++ str " " ++ c.username ++ str " " ++ c.hostname ++
              str " " ++ SERVER_NAME ++ str " " ++ c.nickname ++ str " " ++ flags ++ str " :0 " ++
              c.realname))
          s
        s.sendReply client "315" ending
    else
      let s :=
        match s.findClientByNick target with
        | none => s
        | some dest =>
          let c := s.deref dest
          s.sendReply client "352" (str "* " ++ c.username ++ str " " ++ c.hostname ++ str " " ++
            SERVER_NAME ++ str " " ++ c.nickname ++ str " H" ++ str " :0 " ++ c.realname)
      s.sendReply client "315" ending

/-- The channels of a client, as `WHOIS` lists them. -/
def whoisChannels (s : Server) (dest : ClientId) : Str :=
  s.channels.keys.foldl
    (fun chanList ch =>
      if s.isMember ch dest then
        (if chanList ≠ [] then chanList ++ str " " else chanList) ++
          (if s.isOperator ch dest then str "@" else []) ++ (s.channel ch).name
      else chanList)
    []

/-- `Server::cmdWhois`. -/
def cmdWhois (s : Server) (client : ClientId) (msg : Message) : Server :=
  let nick := msg.param (if msg.params.length > 1 then 1 else 0)
  if msg.params = [] ∨ nick = [] then s.sendReply client "431" (str ":No nickname given")
  else
    match s.findClientByNick nick with
    | none => s.sendReply client "401" (nick ++ str " :No such nick/channel")
    | some dest =>
      let c := s.deref dest
      let chanList := s.whoisChannels dest
      let s := s.sendReply client "311" (c.nickname ++ str " " ++ c.username ++ str " " ++
        c.hostname ++ str " * :" ++ c.realname)
      let s := s.sendReply client "312" (c.nickname ++ str " " ++ SERVER_NAME ++
        str " :ft_irc server")
      let s :=
        if chanList ≠ [] then s.sendReply client "319" (c.nickname ++ str " :" ++ chanList) else s
      s.sendReply client "318" (c.nickname ++ str " :End of WHOIS list")

/-- `Server::cmdUserhost`. -/
def cmdUserhost (s : Server) (client : ClientId) (msg : Message) : Server :=
  if msg.params = [] then s.sendReply client "461" (str "USERHOST :Not enough parameters")
  else
    let reply := (msg.params.take 5).foldl
      (fun reply nick =>
        match s.findClientByNick nick with
        | none => reply
        | some dest =>
          (if reply ≠ [] then reply ++ str " " else reply) ++ (s.deref dest).nickname ++
            str "=+" ++ (s.deref dest).username ++ str "@" ++ (s.deref dest).hostname)
      []
    s.sendReply client "302" (str ":" ++ reply)

end Server

end FtIrc
