/-!
JSON values.

Numbers keep the three kinds a JSON reader distinguishes: an unsigned integer that fits 64 bits,
a negative integer that fits 64 signed bits, and a binary64 float for everything else. Objects
keep their members as a list; `Json.insert` keeps that list sorted by key with the last value of
a repeated key, which is how the block splitter reads a document.
-/

namespace ShardStore

/-- A JSON document. -/
inductive Json where
  | null
  | bool (b : Bool)
  /-- A non-negative integer below `2 ^ 64`. -/
  | nat (n : Nat)
  /-- A negative integer at or above `-2 ^ 63`. -/
  | neg (n : Int)
  | float (x : Float)
  | str (s : String)
  | arr (items : List Json)
  | obj (fields : List (String × Json))
deriving Inhabited

namespace Json

/-- An integer as a number of the right kind. -/
def int (i : Int) : Json := if i < 0 then .neg i else .nat i.toNat

/-- The value of a member, if present. -/
def get? (j : Json) (k : String) : Option Json :=
  match j with
  | obj fs => (fs.find? (·.1 == k)).map (·.2)
  | _ => none

/-- Whether a member is present and not null. -/
def has (j : Json) (k : String) : Bool :=
  match j.get? k with
  | some null => false
  | some _ => true
  | none => false

/-- Insert a member into a key-sorted member list, replacing an equal key. -/
def insertField (k : String) (v : Json) : List (String × Json) → List (String × Json)
  | [] => [(k, v)]
  | (k', v') :: rest =>
    if k < k' then (k, v) :: (k', v') :: rest
    else if k = k' then (k, v) :: rest
    else (k', v') :: insertField k v rest

/-- The text of a string value. -/
def getStr? : Json → Option String
  | str s => some s
  | _ => none

/-- The items of an array. -/
def getArr? : Json → Option (List Json)
  | arr xs => some xs
  | _ => none

/-- Whether the value is an object. -/
def isObj : Json → Bool
  | obj _ => true
  | _ => false

end Json

end ShardStore
