import Jbdtool.Json.Value

/-! parson's parser. A text is a C string, so it ends before its first NUL; the
fuel of the recursive functions is the text's length. -/
namespace Jbdtool
open CString Numbers
namespace Json

/-- A byte array seen as a C string. -/
def cstr (s : Bytes) : Bytes := s.takeWhile (· ≠ 0)

def isCont (c : UInt8) : Bool := c &&& 0xC0 == 0x80

/-- `num_bytes_in_utf8_sequence` -/
def utf8Length (c : UInt8) : Nat :=
  if c = 0xC0 ∨ c = 0xC1 ∨ c > 0xF4 ∨ isCont c then 0
  else if c &&& 0x80 = 0 then 1
  else if c &&& 0xE0 = 0xC0 then 2
  else if c &&& 0xF0 = 0xE0 then 3
  else 4

/-- The code point is not overlong, not a surrogate and inside Unicode. -/
def validPoint (cp len : Nat) : Bool :=
  !(cp < 0x80 && len > 1 || cp < 0x800 && len > 2 || cp < 0x10000 && len > 3) &&
    cp ≤ 0x10FFFF && !(0xD800 ≤ cp && cp ≤ 0xDFFF)

def contBits (c : UInt8) : Nat := (c &&& 0x3F).toNat

/-- `verify_utf8_sequence`: the length of a valid sequence at the front. -/
def verifyUtf8 : Bytes → Option Nat
  | [] => none
  | c0::s => match utf8Length c0, s with
    | 1, _ => if validPoint c0.toNat 1 then some 1 else none
    | 2, c1::_ =>
      let cp := (c0 &&& 0x1F).toNat * 64 + contBits c1
      if isCont c1 && validPoint cp 2 then some 2 else none
    | 3, c1::c2::_ =>
      let cp := ((c0 &&& 0xF).toNat * 64 + contBits c1) * 64 + contBits c2
      if isCont c1 && isCont c2 && validPoint cp 3 then some 3 else none
    | 4, c1::c2::c3::_ =>
      let cp := (((c0 &&& 0x7).toNat * 64 + contBits c1) * 64 + contBits c2) * 64 + contBits c3
      if isCont c1 && isCont c2 && isCont c3 && validPoint cp 4 then some 4 else none
    | _, _ => none

def validUtf8Fuel : Nat → Bytes → Bool
  | _, [] => true
  | 0, _ => false
  | fuel + 1, s => match verifyUtf8 s with
    | none => false
    | some len => validUtf8Fuel fuel (s.drop len)

/-- `is_valid_utf8` -/
def isValidUtf8 (s : Bytes) : Bool := validUtf8Fuel s.length s

/-- `json_value_init_string` -/
def initString (s : Bytes) : Option Json := if isValidUtf8 s then some (.string s) else none

/-- The span of `skip_quotes` after the opening quote: the text before the closing
quote, and the text after it. -/
def skipQuotes : Bytes → Option (Bytes × Bytes)
  | [] => none
  | 34::s => some ([],s)
  | 92::c::s => (skipQuotes s).map (fun r => (92::c::r.1,r.2))
  | c::s => if c = 92 then none else (skipQuotes s).map (fun r => (c::r.1,r.2))

/-- `parse_utf16_hex` -/
def hex4 (a b c d : UInt8) : Option Nat :=
  if [a,b,c,d].all (isDigitOf 16) then
    some (numeralValue 16 ([a,b,c,d].filterMap digitValue))
  else none

def utf8Encode (cp : Nat) : Bytes :=
  if cp < 0x80 then [UInt8.ofNat cp]
  else if cp < 0x800 then [UInt8.ofNat (0xC0 + cp / 64),UInt8.ofNat (0x80 + cp % 64)]
  else if cp < 0x10000 then
    [UInt8.ofNat (0xE0 + cp / 4096),UInt8.ofNat (0x80 + cp / 64 % 64),UInt8.ofNat (0x80 + cp % 64)]
  else [UInt8.ofNat (0xF0 + cp / 262144),UInt8.ofNat (0x80 + cp / 4096 % 64),
    UInt8.ofNat (0x80 + cp / 64 % 64),UInt8.ofNat (0x80 + cp % 64)]

def unescape (c : UInt8) : Option UInt8 :=
  if c = 34 then some 34 else if c = 92 then some 92 else if c = 47 then some 47
  else if c = 98 then some 8 else if c = 102 then some 12 else if c = 110 then some 10
  else if c = 114 then some 13 else if c = 116 then some 9 else none

/-- `process_string` on the text between the quotes. -/
def processString : Bytes → Option Bytes
  | [] => some []
  | 92::117::a::b::c::d::s => match hex4 a b c d with
    | none => none
    | some lead =>
      if lead < 0xD800 ∨ 0xDFFF < lead then (processString s).map (utf8Encode lead ++ ·)
      else if 0xDBFF < lead then none
      else match s with
        | 92::117::e::f::g::h::s => match hex4 e f g h with
          | none => none
          | some trail =>
            if trail < 0xDC00 ∨ 0xDFFF < trail then none
            else (processString s).map
              (utf8Encode ((lead - 0xD800) * 1024 + (trail - 0xDC00) + 0x10000) ++ ·)
        | _ => none
  | 92::c::s => match unescape c with
    | none => none
    | some c => (processString s).map (c::·)
  | c::s => if c = 92 ∨ c < 32 then none else (processString s).map (c::·)

/-- `get_quoted_string` -/
def getQuotedString : Bytes → Option (Bytes × Bytes)
  | 34::s => match skipQuotes s with
    | none => none
    | some (text,rest) => (processString text).map (fun text => (text,rest))
  | _ => none

/-- `strncmp(token,s,strlen(token)) == 0`, and what follows the token. -/
def skipToken (token s : Bytes) : Option Bytes := if token.isPrefixOf s then some (s.drop token.length) else none

/-- `is_decimal` refuses leading zeros. Hexadecimal text, which it refuses too, and
`-inf` and `-nan`, which give no number, are the forms strtod takes beyond decimals. -/
def isDecimal (text : Bytes) : Bool :=
  match text with
  | 48::c::_ => c == 46
  | 45::48::c::_ => c == 46
  | _ => true

def hexFollows : Bytes → Bool
  | 46::h::_ => isDigitOf 16 h
  | h::_ => isDigitOf 16 h
  | [] => false

/-- Without a hexadecimal digit, before a point or behind one, strtod reads the zero alone. -/
def notDecimal (s : Bytes) : Bool :=
  match (numeralSign s).2 with
  | 48::x::s => (x == 120 || x == 88) && hexFollows s
  | a::b::c::_ => [a,b,c].map tolower == bytes "inf" || [a,b,c].map tolower == bytes "nan"
  | _ => false

/-- strtod reports a range error. -/
def outOfRange (q : ℚ) : Bool :=
  decide (2^1024 ≤ |roundDouble q|) || (decide (|q| < 1 / 2^1022) && decide (roundDouble q ≠ q))

def parseNumber (s : Bytes) : Option (Json × Bytes) :=
  let number := strtod s
  if notDecimal s || outOfRange number.1 || !isDecimal (s.take (s.length - number.2.length)) then none
  else some (.number (roundDouble number.1),number.2)

def parseBoolean (s : Bytes) : Option (Json × Bytes) :=
  match skipToken (bytes "true") s with
  | some rest => some (.boolean true,rest)
  | none => (skipToken (bytes "false") s).map (fun rest => (.boolean false,rest))

def parseNull (s : Bytes) : Option (Json × Bytes) :=
  (skipToken (bytes "null") s).map (fun rest => (.null,rest))

def skipSpaces (s : Bytes) : Bytes := s.dropWhile isspace

mutual

/-- `parse_value`, with the first steps of `parse_object_value` and
`parse_array_value`. -/
def parseValue : Nat → Nat → Bytes → Option (Json × Bytes)
  | 0, _, _ => none
  | fuel + 1, nesting, s =>
    if nesting > 2048 then none else
    match skipSpaces s with
    | [] => none
    | c::s =>
      if c = 123 then match skipSpaces s with
        | 125::s => some (.object [],s)
        | s => parseMembers fuel (nesting + 1) [] s
      else if c = 91 then match skipSpaces s with
        | 93::s => some (.array [],s)
        | s => parseItems fuel (nesting + 1) [] s
      else if c = 34 then (getQuotedString (c::s)).map (fun r => (.string r.1,r.2))
      else if c = 102 ∨ c = 116 then parseBoolean (c::s)
      else if c = 45 ∨ isdigit c then parseNumber (c::s)
      else if c = 110 then parseNull (c::s)
      else none

/-- The loop of `parse_object_value`. -/
def parseMembers : Nat → Nat → List (Bytes × Json) → Bytes → Option (Json × Bytes)
  | 0, _, _, _ => none
  | fuel + 1, nesting, members, s => match getQuotedString s with
    | none => none
    | some (key,s) =>
      if key.contains 0 then none else
      match skipSpaces s with
      | 58::s => match parseValue fuel nesting s with
        | none => none
        | some (value,s) =>
          if members.any (fun m => m.1 == key) then none else
          match skipSpaces s with
          | 44::s => parseMembers fuel nesting (members ++ [(key,value)]) (skipSpaces s)
          | 125::s => some (.object (members ++ [(key,value)]),s)
          | _ => none
      | _ => none

/-- The loop of `parse_array_value`. -/
def parseItems : Nat → Nat → List Json → Bytes → Option (Json × Bytes)
  | 0, _, _, _ => none
  | fuel + 1, nesting, items, s => match parseValue fuel nesting s with
    | none => none
    | some (value,s) => match skipSpaces s with
      | 44::s => parseItems fuel nesting (items ++ [value]) (skipSpaces s)
      | 93::s => some (.array (items ++ [value]),s)
      | _ => none

end

def skipBom : Bytes → Bytes
  | 0xEF::0xBB::0xBF::s => s
  | s => s

/-- `json_parse_string`; what follows the first value is not looked at. -/
def parseString (text : Bytes) : Option Json :=
  let s := skipBom (cstr text)
  (parseValue (s.length + 1) 0 s).map Prod.fst

end Json
end Jbdtool
