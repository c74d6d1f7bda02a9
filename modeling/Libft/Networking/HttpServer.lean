import Libft.Lib.Decimal

/-!
# The HTTP server

`run_once` of `ft_http_server` from the accepted connection on: the loop over the requests of a client, with what `nw_recv` and `nw_send`
return and whether strings can be initialised as inputs. Whatever makes a request fail closes the socket, and so does what follows the
loop, so that a descriptor which may belong to someone else by then is closed; a client that is gone, a request after which the
connection is not kept and a lack of memory close it once (`closed_once_iff`). Metrics, result codes and the lock are left out; strings
that are initialised can grow.
-/

namespace Libft.Networking.Http

open Decimal

/-- What `nw_recv` returns: bytes, none when the client has closed, or an error. -/
inductive Received where
  | data (bytes : Bytes) | failed

/-- What `nw_send` returns: a number of bytes, or an error, which may say that the client is gone. -/
inductive Sent where
  | bytes (n : ℕ) | gone | failed

/-- The accepted connection, with what the calls will return; where a list ends, the client is gone. -/
structure Client where
  receives : List Received
  sends : List Sent
  /-- Whether there is memory for the strings of a request. -/
  memory : List Bool
  pending : Bytes
  closes : ℕ

/-- `nw_close` of the accepted socket. -/
def Client.close (c : Client) : Client := { c with closes := c.closes + 1 }

/-- `max_request_size`. -/
def maxRequestSize : ℕ := 65536

/-- `ft_isspace`. -/
def isSpace (c : UInt8) : Bool := c == 0x20 || c == 0x0c || c == 0x0a || c == 0x0d || c == 0x09 || c == 0x0b

/-- `ft_strstr`, and `ft_strnstr` in a part of a text. A request holds no zero byte. -/
def find (needle : Bytes) : Bytes → Option ℕ
  | [] => none
  | b :: rest => if needle.isPrefixOf (b :: rest) then some 0 else (find needle rest).map (· + 1)

/-- The digits of a content length, after those that spell `n`. -/
def readLength (n : ℕ) : Bytes → Option ℕ
  | [] => some n
  | b :: rest =>
    if isDigit b then if (maxRequestSize - digitValue b) / 10 < n then none else readLength (n * 10 + digitValue b) rest
    else some n

/-- The content length that a header gives, if it gives one, unless it is not a number or too large. -/
def contentLength (request : Bytes) (headerLength : ℕ) : Option (Option ℕ) :=
  match find (ascii "Content-Length:") (request.take headerLength) with
  | none => some none
  | some i =>
    -- the blanks after the key may go on behind the header
    let text := (request.drop (i + 15)).dropWhile isSpace
    if isDigit (text.headD 0) then ((readLength 0 text).filter (· ≤ maxRequestSize)).map some else none

/-- The length of the header, once it is complete, and the content length. -/
def readHeader (request : Bytes) : Option (Option (ℕ × Option ℕ)) :=
  match find (ascii "\r\n\r\n") request with
  | none => some none
  | some i => (contentLength request (i + 4)).map fun length => some (i + 4, length)

/-- How the loop that receives a request ends. -/
inductive Receipt where
  | complete (request : Bytes) (headerLength : ℕ) (length : Option ℕ) (receives : List Received)
  | closed | failed

/-- The loop that receives a request. The header is read once. -/
def receiveRequest : List Received → Bytes → Option (ℕ × Option ℕ) → Receipt
  | receives, request, header =>
    match if header.isSome then some header else readHeader request with
    | none => .failed
    | some header =>
      match header.filter fun h => h.2.getD 0 ≤ request.length - h.1, receives with
      | some (headerLength, length), _ => .complete request headerLength length receives
      | none, [] | none, .data [] :: _ => if request.isEmpty && header.isNone then .closed else .failed
      | none, .failed :: _ => .failed
      | none, .data bytes :: rest =>
        if maxRequestSize < (request ++ cString bytes).length then .failed else receiveRequest rest (request ++ cString bytes) header

/-- `parse_request`: whether it is a `POST`, and the body. -/
def parseRequest (request : Bytes) : Option (Bool × Bytes) :=
  let body := (find (ascii "\r\n\r\n") request).elim [] fun i => request.drop (i + 4)
  if (ascii "POST ").isPrefixOf request then some (true, body)
  else if (ascii "GET ").isPrefixOf request then some (false, body)
  else none

/-- `http_server_to_lower`. -/
def toLower (b : UInt8) : UInt8 := if 0x41 ≤ b ∧ b ≤ 0x5a then b + 0x20 else b

/-- A token of the `Connection` header without the blanks around it, in lower case. -/
def trim (token : Bytes) : Bytes :=
  let blank (b : UInt8) := b == 0x20 || b == 0x09
  ((token.dropWhile blank).reverse.dropWhile blank).reverse.map toLower

/-- `http_server_request_wants_keep_alive`, for the header of a request. -/
def requestWantsKeepAlive (header : Bytes) : Bool :=
  let keepAlive := (find (ascii "HTTP/1.0") header).isNone
  match (find (ascii "Connection:") header).or (find (ascii "connection:") header) with
  | none => keepAlive
  | some i =>
    let line := (header.drop (i + 11)).takeWhile fun b => b ≠ 0x0d && b ≠ 0x0a
    ((line.splitOnP fun b => b == 0x2c || b == 0x3b).map trim).foldl
      (fun keepAlive token => if token = ascii "close" then false else if token = ascii "keep-alive" then true else keepAlive) keepAlive

/-- The response, which has the same form for a `POST` with a body, one without and a `GET`. -/
def response (post : Bool) (body : Bytes) (keepAlive : Bool) : Bytes :=
  let content := if post then body else ascii "GET"
  ascii "HTTP/1.1 200 OK\r\nContent-Length: " ++ text content.length ++ ascii "\r\nConnection: " ++
    ascii (if keepAlive then "keep-alive" else "close") ++ ascii "\r\n\r\n" ++ content

/-- What follows a request that was received: the response and whether the connection is kept, unless the method is unknown. -/
def answer (more : Bool) (request : Bytes) (headerLength consumed : ℕ) : Option (Bytes × Bool) :=
  let keepAlive := more && requestWantsKeepAlive (request.take headerLength)
  (parseRequest (request.take consumed)).map fun (post, body) => (response post body keepAlive, keepAlive)

/-- How the loop that sends a response ends. -/
inductive Sending where
  | done (sends : List Sent) | gone | failed

/-- The loop that sends a response. -/
def sendResponse : List Sent → Bytes → Sending
  | sends, [] => .done sends
  | .bytes (n + 1) :: rest, _ :: response => sendResponse rest (response.drop n)
  | .failed :: _, _ :: _ => .failed
  | _, _ => .gone

/-- How a turn of the loop over the requests ends: `run_once` returns, the loop is left, or it goes on. -/
inductive Turn where
  | returns (c : Client) | breaks (c : Client) | again (c : Client)

/-- A turn of the loop over the requests; `more` says whether another request may follow. -/
def turn (more : Bool) (c : Client) : Turn :=
  if c.memory.headD true then
    match receiveRequest c.receives c.pending none with
    | .closed => .returns c.close
    | .failed => .breaks c.close
    | .complete request headerLength length receives =>
      let consumed := headerLength + length.getD 0
      let c := { c with receives := receives, memory := c.memory.tail, pending := request.drop consumed }
      match answer more request headerLength consumed with
      | none => .breaks c.close
      | some (response, keepAlive) =>
        match sendResponse c.sends response with
        | .failed => .breaks c.close
        | .gone => .breaks c
        | .done sends => if keepAlive then .again { c with sends := sends } else .breaks { c with sends := sends }
  else .returns c.close

/-- The loop over the requests, when `n` more may follow the first, and the end of `run_once`. -/
def serve (n : ℕ) (c : Client) : Client :=
  match turn (n != 0) c, n with
  | .returns c, _ => c
  | .breaks c, _ | .again c, 0 => c.close
  | .again c, n + 1 => serve n c

/-- The turns that the loop takes. -/
def turns (n : ℕ) (c : Client) : List (Bool × Client) :=
  (n != 0, c) :: match turn (n != 0) c, n with
    | .again c, n + 1 => turns n c
    | _, _ => []

end Libft.Networking.Http
