import Stok.Core.Histogram
import Stok.Engine.Engine
import Stok.Engine.ScoreText
import Stok.Sink.Journal

/-!
# Alerts (`sink/alerts.cpp`)

A signal becomes a text, the text becomes the HTML of a Telegram message, and the message becomes the
JSON of a request; a datagram holds the signal as JSON. `AlertSink` delivers one signal after the other.
What the clocks and the servers answer in a call is the argument `x` of the call. The `log` is not in
the source, and nothing reads it.
-/

namespace Stok

def tierName : Tier → Bytes
  | .none => lit "none"
  | .watch => lit "WATCH"
  | .alert => lit "ALERT"
  | .high => lit "HIGH"
  | .halt => lit "HALT"
  | .mover => lit "MOVER"
  | .info => lit "INFO"

namespace Alerts

open Scorer

def tierIcon : Tier → Bytes
  | .watch => [0xF0, 0x9F, 0x9F, 0xA1]
  | .alert => [0xF0, 0x9F, 0x9F, 0xA0]
  | .high => [0xF0, 0x9F, 0x94, 0xB4]
  | .halt => [0xE2, 0x8F, 0xB8]
  | .mover => [0xF0, 0x9F, 0x9A, 0x80]
  | .info => [0xE2, 0x9A, 0xA0]
  | .none => []

/-- A middle dot between spaces. -/
def dot : Bytes := [32, 0xC2, 0xB7, 32]

section

variable {F : Type} [Dbl F]

/-- `%.*f` -/
def printed (prec : Nat) (v : F) : Bytes :=
  if Dbl.isFinite v then Dbl.fixed prec v
  else (if Dbl.signBit v then [ch '-'] else []) ++
    if Dbl.le Dbl.inf v || Dbl.le v (-Dbl.inf) then lit "inf" else lit "nan"

/-- `%+.*f` -/
def signed (prec : Nat) (v : F) : Bytes :=
  if Dbl.signBit v then printed prec v else ch '+' :: printed prec v

def pos (v : F) : Bool := Dbl.lt (Dbl.ofRat 0) v

def atLeast (v : F) (q : ℚ) : Bool := Dbl.le (Dbl.ofRat q) v

def per (v : F) (q : ℚ) : F := v / Dbl.ofRat q

def money (v : F) : Bytes :=
  List.take 31 <|
    if atLeast v 1000000000 then ch '$' :: (printed 2 (per v 1000000000) ++ lit "B")
    else if atLeast v 1000000 then ch '$' :: (printed 1 (per v 1000000) ++ lit "M")
    else if atLeast v 1000 then ch '$' :: (printed 0 (per v 1000) ++ lit "K")
    else ch '$' :: printed 0 v

def shares (v : F) : Bytes :=
  List.take 31 <|
    if atLeast v 1000000000 then printed 2 (per v 1000000000) ++ lit "B"
    else if atLeast v 1000000 then printed 1 (per v 1000000) ++ lit "M"
    else printed 0 (per v 1000) ++ lit "K"

/-- A line from a buffer of 512 bytes. -/
def line (s : Bytes) : Bytes := s.take 511

/-- What the header says of the price and the volume. -/
def header (s : Signal F) : Bytes :=
  line (tierIcon s.tier ++ lit " " ++ tierName s.tier ++ lit " " ++ s.ticker.bytes) ++
    (if pos s.price then
      line (lit "  $" ++ printed (if Dbl.lt s.price (Dbl.ofRat 1) then 4 else 2) s.price) ++
        if pos s.refPrice ∧ s.tier ≠ .watch then
          line (lit " (" ++ signed 1 s.movePct ++ lit "% " ++
            (if s.tier = .mover then lit "vs prev close" else lit "since news") ++ lit ")")
        else []
      else []) ++
    (if pos s.rvol then line (lit "  RVOL " ++ printed 1 s.rvol ++ lit "x") else []) ++
    (if pos s.dollarVolume then lit "  " ++ money s.dollarVolume ++ lit " traded" else []) ++
    (if pos s.spreadPct then line (lit "  spread " ++ printed 1 s.spreadPct ++ lit "%") else []) ++
    if s.haltReason.bytes ≠ [] then lit "  [" ++ s.haltReason.bytes ++ lit "]" else []

/-- `ctx += (ctx.empty() ? "" : " · ") + part` -/
def joined (ctx part : Bytes) : Bytes := (if ctx = [] then [] else ctx ++ dot) ++ part

def textFlags : UInt32 := kSfNonBinding ||| kSfUpTo ||| kSfPromo

def context (s : Signal F) : Bytes :=
  let ctx := if pos s.sharesOut then lit "shares " ++ shares s.sharesOut else []
  let ctx := if pos s.marketCap then joined ctx (lit "mcap " ++ money s.marketCap) else ctx
  let ctx := if s.exchange.bytes ≠ [] then joined ctx s.exchange.bytes else ctx
  let ctx := joined ctx (lit "filings: " ++
    if s.dilutionFlags ≠ 0 then dilutionFlagsStr s.dilutionFlags else lit "clean")
  if s.scoreFlags &&& textFlags ≠ 0 then
    ctx ++ dot ++ lit "text: " ++ scoreFlagsStr (s.scoreFlags &&& textFlags)
  else ctx

def sourceOf (s : Signal F) (sources : List Bytes) : Bytes :=
  match sources[s.source.toNat]? with
  | some name => cstr name
  | none => lit "?"

def lastLine (s : Signal F) (sources : List Bytes) : Bytes :=
  line (lit "score " ++ Dbl.intText s.score.toInt ++ dot ++ catalystName s.catalyst ++ dot ++ lit "src " ++
      sourceOf s sources) ++
    (if s.tNewsRecvNs ≠ 0 ∧ s.tNewsRecvNs < s.tSignalNs ∧ s.tier ≠ .watch ∧ s.tier ≠ .mover then
      line (dot ++ lit "signal " ++
        printed 1 (per (Dbl.ofRat (s.tSignalNs - s.tNewsRecvNs).toNat : F) 1000000000) ++ lit "s after news")
      else []) ++
    dot ++ Time.easternHms s.tSignalNs.toInt64.toInt ++ lit " ET" ++
    if s.link.bytes ≠ [] then 10 :: s.link.bytes else []

def formatText (s : Signal F) (sources : List Bytes) : Bytes :=
  header s ++ [10] ++
    (if s.why.bytes ≠ [] then s.why.bytes ++ [10] else []) ++
    context s ++ [10] ++
    (if s.title.bytes ≠ [] then ch '"' :: s.title.bytes ++ lit "\"\n" else []) ++
    lastLine s sources

def escapeByte (c : UInt8) : Bytes :=
  if c = ch '&' then lit "&amp;"
  else if c = ch '<' then lit "&lt;"
  else if c = ch '>' then lit "&gt;"
  else [c]

def htmlEscape (s : Bytes) : Bytes := s.flatMap escapeByte

/-- The plain text, escaped, with its first line in bold. -/
def formatHtml (s : Signal F) (sources : List Bytes) : Bytes :=
  let plain := formatText s sources
  lit "<b>" ++ htmlEscape (plain.takeWhile (· ≠ 10)) ++ lit "</b>" ++ htmlEscape (plain.dropWhile (· ≠ 10))

/-! ## Requests -/

def telegramBody (chatId html : Bytes) : Bytes :=
  lit "\x7b\"chat_id\":\"" ++ Text.jsonEscaped chatId ++
    lit "\",\"parse_mode\":\"HTML\",\"disable_web_page_preview\":true,\"text\":\"" ++
    Text.jsonEscaped html ++ lit "\"\x7d"

/-- The numbers of a datagram, from a buffer of 256 bytes. -/
def udpNumbers (s : Signal F) : Bytes :=
  List.take 255 <|
    lit "\",\"price\":" ++ printed 4 s.price ++ lit ",\"move_pct\":" ++ printed 2 s.movePct ++
    lit ",\"rvol\":" ++ printed 2 s.rvol ++ lit ",\"score\":" ++ Dbl.intText s.score.toInt ++
    lit ",\"signal_ns\":" ++ Dbl.digits s.tSignalNs.toNat ++ lit ",\"title\":\""

def udpBody (s : Signal F) : Bytes :=
  lit "\x7b\"tier\":\"" ++ tierName s.tier ++ lit "\",\"ticker\":\"" ++ Text.jsonEscaped s.ticker.bytes ++
    udpNumbers s ++ Text.jsonEscaped s.title.bytes ++ lit "\",\"why\":\"" ++ Text.jsonEscaped s.why.bytes ++
    lit "\",\"link\":\"" ++ Text.jsonEscaped s.link.bytes ++ lit "\"\x7d"

/-! ## Delivery -/

structure AlertOptions where
  stdoutEnabled : Bool := true
  /-- There is a token, so `init` has made a client. -/
  telegram : Bool := false
  telegramChatId : Bytes := []
  telegramMinTier : Tier := .alert
  telegramHalts : Bool := true
  telegramMovers : Bool := true
  /-- `init` has opened a socket. -/
  udp : Bool := false
  keepalivePingS : Int32 := 25

structure AlertStats where
  signals : Nat := 0
  telegramSent : Nat := 0
  telegramFailed : Nat := 0
  udpSent : Nat := 0
  signalToSent : LatencyHistogram := {}

/-- What goes out of the sink. -/
inductive AlertMark where
  | datagram (body : Bytes)
  | stdout (text : Bytes)
  /-- A post from `start` to `stop` and its status; `ok` is the client's word for it. -/
  | post (body : Bytes) (start stop : UInt64) (status : Nat) (ok : Bool) (retry : UInt64)
  /-- A ping from `start` to `stop`. -/
  | ping (start stop : UInt64)

structure AlertSink where
  opts : AlertOptions
  sources : List Bytes
  lastTelegramIo : UInt64 := 0
  telegramBackoffUntil : UInt64 := 0
  stats : AlertStats := {}
  log : List AlertMark := []

/-- What happens around a call: the clock before a request, after it, and once more when the answer has
been read; the answer; the wall clock at the end; whether the datagram is sent. -/
structure Exchange where
  start : UInt64 := 0
  stop : UInt64 := 0
  read : UInt64 := 0
  status : Nat := 0
  /-- No error of the client. -/
  clean : Bool := true
  body : Bytes := []
  wall : UInt64 := 0
  datagram : Bool := true

/-- `r.ok()` -/
def Exchange.ok (x : Exchange) : Bool := x.clean ∧ 200 ≤ x.status ∧ x.status < 300

/-- The seconds that a throttled answer asks for; the value of `atoi` must fit an `int`. -/
def retryAfter (body : Bytes) : Nat :=
  match find (lit "retry_after") body 0 with
  | none => 3
  | some p => digitsVal (((body.drop (p + 11)).dropWhile fun c => !isDigit c).takeWhile isDigit)

/-- `max(1, retry) * kNsPerSec` -/
def retryNs (body : Bytes) : UInt64 := .ofNat (max 1 (retryAfter body)) * 1000000000

omit [Dbl F] in
/-- A request is posted and answered. -/
def post (a : AlertSink) (body : Bytes) (x : Exchange) : AlertSink :=
  { a with
    lastTelegramIo := x.stop
    telegramBackoffUntil := if x.status = 429 then x.read + retryNs x.body else a.telegramBackoffUntil
    log := a.log ++ [.post body x.start x.stop x.status x.ok (retryNs x.body)] }

/-- `send_telegram`, and whether the message was accepted. -/
def sendTelegram (a : AlertSink) (s : Signal F) (x : Exchange) : AlertSink × Bool :=
  if x.start < a.telegramBackoffUntil then (a, false)
  else
    let a := post a (telegramBody a.opts.telegramChatId (formatHtml s a.sources)) x
    if x.status = 429 then (a, false) else (a, x.ok)

omit [Dbl F] in
/-- Whether a signal is for Telegram, by its tier. -/
def toTelegram (opts : AlertOptions) (s : Signal F) : Bool :=
  match s.tier with
  | .halt => opts.telegramHalts
  | .mover => opts.telegramMovers
  | .info => true
  | t => opts.telegramMinTier.rank ≤ t.rank

def sendUdp (a : AlertSink) (s : Signal F) (x : Exchange) : AlertSink :=
  if a.opts.udp ∧ x.datagram then
    { a with stats.udpSent := a.stats.udpSent + 1, log := a.log ++ [.datagram (udpBody s)] }
  else a

def printText (a : AlertSink) (s : Signal F) : AlertSink :=
  if a.opts.stdoutEnabled then
    { a with log := a.log ++ [.stdout (formatText s a.sources ++ [10, 10])] }
  else a

def tellTelegram (a : AlertSink) (s : Signal F) (x : Exchange) : AlertSink :=
  if toTelegram a.opts s ∧ a.opts.telegram then
    match sendTelegram a s x with
    | (a, true) =>
      { a with
        stats.telegramSent := a.stats.telegramSent + 1
        stats.signalToSent := if s.tSignalNs < x.wall then a.stats.signalToSent.record (x.wall - s.tSignalNs)
          else a.stats.signalToSent }
    | (a, false) => { a with stats.telegramFailed := a.stats.telegramFailed + 1 }
  else a

def deliver (a : AlertSink) (s : Signal F) (x : Exchange) : AlertSink :=
  let a := { a with stats.signals := a.stats.signals + 1 }
  tellTelegram (printText (sendUdp a s x) s) s x

omit [Dbl F] in
def keepalive (a : AlertSink) (x : Exchange) : AlertSink :=
  if !a.opts.telegram ∨ a.opts.keepalivePingS ≤ 0 then a
  else if x.start - a.lastTelegramIo < a.opts.keepalivePingS.toInt.toNat.toUInt64 * 1000000000 then a
  else { a with lastTelegramIo := x.stop, log := a.log ++ [.ping x.start x.stop] }

/-- The calls of `run`: what the queue holds is delivered, and the connection kept alive. -/
inductive AlertCall (F : Type) where
  | deliver (s : Signal F) (x : Exchange)
  | keepalive (x : Exchange)

def AlertSink.call (a : AlertSink) : AlertCall F → AlertSink
  | .deliver s x => Alerts.deliver a s x
  | .keepalive x => Alerts.keepalive a x

def AlertSink.run (a : AlertSink) (calls : List (AlertCall F)) : AlertSink := calls.foldl AlertSink.call a

end

end Alerts

end Stok
