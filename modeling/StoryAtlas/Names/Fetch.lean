import StoryAtlas.Json.Reader
import StoryAtlas.Names.Catalogue

/-!
# Fetching the names

The names come from two catalogues, one of cards and one of talents, each of which a server answers
for. An answer has to be a success and an object; a byte-order mark before the object does no harm.
If neither catalogue can be used, the failure of the cards is the one reported.
-/

namespace StoryAtlas

/-- What comes of a request. -/
inductive Reply where
  | answered (status : Int) (body : String)
  /-- No answer came, for a reason of a kind that has a name. -/
  | failed (kind detail : String)
deriving DecidableEq, Repr

namespace Reply

def success : Int := 200

/-- The byte-order mark. -/
def mark : Char := '\uFEFF'

def unmarked (body : String) : String :=
  match body.toList with
  | c :: rest => if c = mark then String.ofList rest else body
  | [] => body

/-- Reads the catalogue that was asked for. -/
def read (url : String) : Reply → Except Halt Json
  | failed kind detail => .error (.told (.lookup url) (kind ++ ": " ++ detail))
  | answered status body =>
    if status ≠ success then
      .error (.told (.lookup url) ("non-200 response: " ++ toString status))
    else
      match Json.parse (unmarked body) with
      | .ok (.obj fields) => .ok (.obj fields)
      | .ok _ => .error (.told (.lookup url) "response must be a JSON object")
      | .error .malformed => .error (.failure ⟨.lookup url, .malformed⟩)
      | .error (.numberTooLong digits) => .error (.fault (.numeralTooLong digits))

/-- The protocol of a URL. -/
def protocol (url : String) : Option String :=
  (Text.breakOn "://".toList url.toList).map fun parts => String.ofList (parts.1.map Char.toLower)

/-- What comes of a request if there is no network: only the protocols of the web are known, and
they reach nobody. -/
def offline (url : String) : Reply :=
  match protocol url with
  | none =>
    failed "UnsupportedProtocol" "Request URL is missing an 'http://' or 'https://' protocol."
  | some "http" | some "https" => failed "ConnectError" "All connection attempts failed"
  | some other =>
    failed "UnsupportedProtocol" ("Request URL has an unsupported protocol '" ++ other ++ "://'.")

end Reply

/-- The outcome of looking the names up, and what was reported. -/
abbrev Lookup := Except Halt NameTable × Journal

namespace Lookup

/-- The names that two catalogues give. -/
def ofPayloads (cards talents : Json) : Lookup :=
  match NameTable.ofCatalogues [] [cards, talents] with
  | .error fault => (.error (.fault fault), [])
  | .ok (names, journal) =>
    (.ok names, journal ++ Journal.info ("name lookup loaded " ++ toString names.length ++ " ids"))

/-- Fetches both catalogues, each with a URL and what its server replies. -/
def fetch (reply : String → Reply) (cardsUrl talentsUrl : String) : Lookup :=
  match (reply cardsUrl).read cardsUrl, (reply talentsUrl).read talentsUrl with
  | .error halt, _ => (.error halt, [])
  | .ok _, .error halt => (.error halt, [])
  | .ok cards, .ok talents => ofPayloads cards talents

end Lookup

end StoryAtlas
