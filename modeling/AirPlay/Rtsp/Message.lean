import Mathlib.Logic.Function.Basic
import AirPlay.Library.Bytes

/-! Requests and responses of the RTSP-like framing: a request line, headers under
lower-case names, a body. -/
namespace AirPlay.Rtsp

/-- `std::tolower` in the C locale. -/
def lowerByte (b : UInt8) : UInt8 := if 65 ≤ b ∧ b ≤ 90 then b + 32 else b

def toLower (s : Bytes) : Bytes := s.map lowerByte

/-- A request; the names of its headers are in lower case. -/
structure Request where
  method : Bytes := []
  uri : Bytes := []
  version : Bytes := []
  headers : Bytes → Option Bytes := fun _ => none
  body : Bytes := []

/-- Empty when the header is missing. -/
def Request.header (req : Request) (key : Bytes) : Bytes := (req.headers (toLower key)).getD []

/-- A response; a silent one is not sent. -/
structure Response where
  statusCode : Int := 200
  statusText : Bytes := bytes "OK"
  version : Bytes := bytes "RTSP/1.0"
  headers : Bytes → Option Bytes := fun _ => none
  body : Bytes := []
  silent : Bool := false

def Response.setHeader (res : Response) (key value : Bytes) : Response :=
  {res with headers := Function.update res.headers key (some value)}

def make (code : Int) (text : Bytes) : Response := {statusCode := code, statusText := text}

def copyCseq (req : Request) (res : Response) : Response :=
  let cseq := req.header (bytes "cseq")
  if cseq ≠ [] then res.setHeader (bytes "CSeq") cseq else res

end AirPlay.Rtsp
