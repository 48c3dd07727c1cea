import TickScript.Text.Utf8

/-!
# Concise binary objects

The export table of a library is stored as a concise binary object: a head with a major type and a
count, then the content. `Item` is the tree of such an object and `Item.decode` reads exactly one
item that fills its input. Arrays and maps nest at most 32 deep and have at most 131072 entries.
-/

namespace TickScript.Cbor

/-- One data item. -/
inductive Item where
  | unsigned (n : Nat)
  /-- The number `-1 - n`. -/
  | negative (n : Nat)
  | bytes (content : Text)
  /-- A text in one or more chunks. -/
  | text (chunks : List Text)
  | array (items : List Item)
  /-- Keys and values in turn. -/
  | map (entries : List (Item × Item))
  | tagged (tag : Nat) (content : Item)
  | simple (n : Nat)
  | bool (b : Bool)
  /-- Null, or the undefined value. -/
  | null
  | float
deriving Repr, Inhabited

/-- The deepest nesting. -/
def maxDepth : Nat := 32

/-- The most entries of an array or a map. -/
def maxEntries : Nat := 131072

/-- The head of an item: its major type, its additional information and its argument. -/
structure Head where
  major : Nat
  info : Nat
  argument : Nat

/-- The number that bytes spell, most significant first. -/
def bigEndian (t : Text) : Nat := t.foldl (fun n b => n * 256 + b.toNat) 0

/-- The head at the front of some bytes. -/
def head? (t : Text) : Option (Head × Text) := do
  match t with
  | [] => none
  | b :: t =>
    let major := b.toNat / 32
    let info := b.toNat % 32
    if info < 24 then some (⟨major, info, info⟩, t)
    else if info < 28 then
      let width := 1 <<< (info - 24)
      let window := t.take width
      if window.length < width then none
      else
        let n := bigEndian window
        if major == 7 && info == 24 && n < 32 then none
        else some (⟨major, info, n⟩, t.drop width)
    else if info == 31 && 2 ≤ major && major ≤ 5 then some (⟨major, 31, 31⟩, t)
    else none

/-- `count` bytes and the rest. -/
def window? (count : Nat) (t : Text) : Option (Text × Text) :=
  let window := t.take count
  if window.length < count then none else some (window, t.drop count)

/-- The chunks of a string of unknown length, up to its end mark. -/
def chunks? (major : Nat) : (fuel : Nat) → Text → Option (List Text × Text)
  | 0, _ => none
  | _ + 1, [] => none
  | fuel + 1, b :: t =>
    if b == 0xFF then some ([], t)
    else do
      let (head, rest) ← head? (b :: t)
      if head.major != major || head.info == 31 || 0x8000000000000000 ≤ head.argument then none
      let (chunk, rest) ← window? head.argument rest
      let (more, rest) ← chunks? major fuel rest
      some (chunk :: more, rest)

/-- Neighbouring items as keys and values; none when a key lacks its value. -/
def pairs? : List Item → Option (List (Item × Item))
  | [] => some []
  | key :: value :: rest => (pairs? rest).map ((key, value) :: ·)
  | [_] => none

mutual

/-- The item at the front of some bytes. The fuel bounds the number of items. -/
def item? : (fuel depth : Nat) → Text → Option (Item × Text)
  | 0, _, _ => none
  | fuel + 1, depth, t => do
    let (head, rest) ← head? t
    match head.major with
    | 0 => some (.unsigned head.argument, rest)
    | 1 => some (.negative head.argument, rest)
    | 6 =>
      match rest with
      | [] => none
      | next :: _ =>
        let deeper := if next.toNat / 32 == 6 then depth + 1 else depth
        if maxDepth < deeper then none
        let (content, rest) ← item? fuel deeper rest
        some (.tagged head.argument content, rest)
    | 7 =>
      if head.info == 20 || head.info == 21 then some (.bool (head.info == 21), rest)
      else if head.info == 22 || head.info == 23 then some (.null, rest)
      else if head.info < 25 then some (.simple head.argument, rest)
      else some (.float, rest)
    | major =>
      if major == 2 || major == 3 then
        let wrap (parts : List Text) : Item :=
          if major == 2 then .bytes parts.flatten else .text parts
        if head.info == 31 then
          let (parts, rest) ← chunks? major (rest.length + 1) rest
          some (wrap parts, rest)
        else if 0x8000000000000000 ≤ head.argument then none
        else
          let (content, rest) ← window? head.argument rest
          some (wrap [content], rest)
      else if maxDepth < depth + 1 then none
      else
        let (items, rest) ←
          if head.info == 31 then openItems? fuel (depth + 1) rest
          else if maxEntries < head.argument then none
          else
            items? fuel (depth + 1) (if major == 5 then 2 * head.argument else head.argument) rest
        if major == 4 then
          if maxEntries < items.length then none else some (.array items, rest)
        else
          let entries ← pairs? items
          if maxEntries < entries.length then none else some (.map entries, rest)

/-- `count` items in a row. -/
def items? : (fuel depth count : Nat) → Text → Option (List Item × Text)
  | 0, _, _, _ => none
  | _, _, 0, t => some ([], t)
  | fuel + 1, depth, count + 1, t => do
    let (item, t) ← item? fuel depth t
    let (more, t) ← items? fuel depth count t
    some (item :: more, t)

/-- Items in a row up to an end mark. -/
def openItems? : (fuel depth : Nat) → Text → Option (List Item × Text)
  | 0, _, _ => none
  | _ + 1, _, [] => none
  | fuel + 1, depth, b :: t =>
    if b == 0xFF then some ([], t)
    else do
      let (item, t) ← item? fuel depth (b :: t)
      let (more, t) ← openItems? fuel depth t
      some (item :: more, t)

end

/-- The one item that fills its input. -/
def Item.decode (t : Text) : Option Item := do
  let (item, rest) ← item? (2 * t.length + 2) 0 t
  if rest.isEmpty then some item else none

/-! ## Writing -/

/-- The shortest head of a major type with an argument. -/
def encodeHead (major argument : Nat) : Text :=
  let mark (info : Nat) : UInt8 := (major * 32 + info).toUInt8
  let wide (width : Nat) : Text := (Text.littleEndian width argument).reverse
  if argument < 24 then [mark argument]
  else if argument < 0x100 then mark 24 :: wide 1
  else if argument < 0x10000 then mark 25 :: wide 2
  else if argument < 0x100000000 then mark 26 :: wide 4
  else mark 27 :: wide 8

/-- An integer. -/
def encodeInt (n : Int) : Text :=
  if n < 0 then encodeHead 1 (-1 - n).toNat else encodeHead 0 n.toNat

/-- A text in one piece. -/
def encodeText (t : Text) : Text := encodeHead 3 t.length ++ t

/-- A list, or null when it is absent. -/
def encodeList? (items? : Option (List Text)) : Text :=
  match items? with
  | some items => encodeHead 4 items.length ++ items.flatten
  | none => [0xF6]

end TickScript.Cbor
