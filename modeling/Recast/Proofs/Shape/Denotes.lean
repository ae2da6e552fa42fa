import Recast.Catalog
import Recast.Machine
import Recast.Proofs.Arena.Walk

/-!
# The values of a shape

What the values of a shape are is said here without patterns or automata. A value is a list of
symbols. A shape that places its parts at offsets has the values in which the parts lie there and
every other byte is without a value (`Composes`). A reference holds a length besides the address if
its referent ends in a tail of elements with bytes.
-/

namespace Recast

/-- A byte with or without a value, or a whole reference. -/
inductive Symbol where
  | byte (value : UInt8)
  | uninit
  | reference (guarantee : Guarantee) (width : Nat)
deriving DecidableEq

namespace Symbol

def width : Symbol → Nat
  | byte _ => 1
  | uninit => 1
  | reference _ width => width

def extent : List Symbol → Nat
  | [] => 0
  | symbol :: rest => symbol.width + extent rest

/-- The part stands in the whole at the offset. -/
def Lies (whole : List Symbol) (offset : Nat) (part : List Symbol) : Prop :=
  ∃ before after, whole = before ++ part ++ after ∧ extent before = offset

/-- The whole fills the bytes from `start` up to `stop`. All pieces lie in it at their offsets, and
what does not belong to a piece is without a value. -/
structure Composes (start stop : Nat) (pieces : List (Placed (List Symbol)))
    (whole : List Symbol) : Prop where
  fills : start + extent whole = stop
  placed : ∀ piece ∈ pieces, ∃ inner, Lies whole inner piece.content ∧ start + inner = piece.offset
  rest : ∀ offset symbol, Lies whole offset [symbol] →
    symbol = .uninit ∨ ∃ piece ∈ pieces, ∃ inner,
      Lies piece.content inner [symbol] ∧ start + offset = piece.offset + inner

end Symbol

/-- The digits of a number, the lowest first. -/
def littleEndian : (width number : Nat) → List UInt8
  | 0, _ => []
  | width + 1, number => .ofNat number :: littleEndian width (number / 256)

namespace ByteOrder

/-- Bytes as they lie in memory, given with the most significant one first. -/
def arrange {α : Type} : ByteOrder → List α → List α
  | little, bytes => bytes.reverse
  | big, bytes => bytes

/-- A number as it lies in memory. -/
def encode (order : ByteOrder) (width number : Nat) : List Symbol :=
  (order.arrange (littleEndian width number).reverse).map .byte

end ByteOrder

/-- Other contents at the same offsets. -/
def Placed.refill {α β : Type} (places : List (Placed α)) (contents : List β) : List (Placed β) :=
  List.zipWith (fun place content => ⟨place.offset, content⟩) places contents

def TagSlot.twosComplement (slot : TagSlot) (tag : Int) : Nat :=
  (tag % (Extent.numbers slot.size : Int)).toNat

namespace Shape

/-- Values take at least one byte, if there are any. It is asked of the elements of a tail only,
which never end in a tail themselves. -/
inductive HasBytes (catalog : Catalog) (machine : Machine) : Shape → Prop
  | scalar {number : Scalar} (positive : number.size ≠ 0) (some : number.contents ≠ .ranges []) :
      HasBytes catalog machine (.scalar number)
  | struct {size align : Nat} {fields : List (Placed Shape)} (positive : size ≠ 0) :
      HasBytes catalog machine (.struct size align fields)
  | union {size align : Nat} {fields : List (Placed Shape)} (positive : size ≠ 0) :
      HasBytes catalog machine (.union size align fields)
  | tagged {size align : Nat} {slot : TagSlot} {variants : List (Variant Shape)}
      {others : Option (List (Placed Shape))} (some : variants ≠ [] ∨ others ≠ none) :
      HasBytes catalog machine (.tagged size align slot variants others)
  | array {element : Shape} {number : Nat} (positive : number ≠ 0)
      (bytes : HasBytes catalog machine element) :
      HasBytes catalog machine (.array element (.exact number))
  | reference {referent : Shape} {guarantee : Guarantee} (positive : machine.pointerSize ≠ 0) :
      HasBytes catalog machine (.reference referent guarantee)
  | sealed {name : String} {size align : Nat} (positive : size ≠ 0) :
      HasBytes catalog machine (.sealed name size align)
  | named {id : DefId} {definition : Definition} (found : catalog.get? id = some definition)
      (bytes : HasBytes catalog machine definition.shape) : HasBytes catalog machine (.named id)

/-- The shape ends in a tail whose elements meet a condition. -/
inductive EndsIn (catalog : Catalog) (element : Shape → Prop) : Shape → Prop
  | array {shape : Shape} {number : Nat} (holds : element shape) :
      EndsIn catalog element (.array shape (.atLeast number))
  | struct {size align : Nat} {fields : List (Placed Shape)} {field : Placed Shape}
      (member : field ∈ fields) (ends : EndsIn catalog element field.content) :
      EndsIn catalog element (.struct size align fields)
  | named {id : DefId} {definition : Definition} (found : catalog.get? id = some definition)
      (ends : EndsIn catalog element definition.shape) : EndsIn catalog element (.named id)

/-- The shape ends in a tail. -/
def HasTail (catalog : Catalog) : Shape → Prop :=
  EndsIn catalog fun _ => True

/-- The shape ends in a tail that takes bytes, so that it has no fixed size. -/
def Unsized (catalog : Catalog) (machine : Machine) : Shape → Prop :=
  EndsIn catalog (HasBytes catalog machine)

/-- The values of a shape. -/
inductive Denotes (catalog : Catalog) (machine : Machine) : Shape → List Symbol → Prop
  /-- A number from one of the ranges, in the byte order of the machine. -/
  | number {scalar : Scalar} {ranges : List Range} {range : Range} {number : Nat}
      (contents : scalar.contents = .ranges ranges) (member : range ∈ ranges)
      (inside : range.first ≤ number ∧ number ≤ range.last) :
      Denotes catalog machine (.scalar scalar) (machine.byteOrder.encode scalar.size number)
  | anything {scalar : Scalar} (contents : scalar.contents = .anything) :
      Denotes catalog machine (.scalar scalar) (List.replicate scalar.size .uninit)
  /-- Values of all fields. A struct with a tail ends where the tail ends, any other one takes so
  many bytes as it says. -/
  | struct {size align stop : Nat} {fields : List (Placed Shape)} {values : List (List Symbol)}
      {whole : List Symbol}
      (each : List.Forall₂ (fun field value => Denotes catalog machine field.content value) fields
        values)
      (sized : (∀ field ∈ fields, ¬ field.content.HasTail catalog) → stop = size)
      (tail : ∀ place ∈ fields.zip values, place.1.content.HasTail catalog →
        stop = place.1.offset + Symbol.extent place.2)
      (composes : Symbol.Composes 0 stop (Placed.refill fields values) whole) :
      Denotes catalog machine (.struct size align fields) whole
  | union {size align : Nat} {fields : List (Placed Shape)} {field : Placed Shape}
      {value whole : List Symbol} (member : field ∈ fields)
      (isValue : Denotes catalog machine field.content value)
      (composes : Symbol.Composes 0 size [⟨field.offset, value⟩] whole) :
      Denotes catalog machine (.union size align fields) whole
  /-- The tag of a variant in two's complement, and values of its fields. -/
  | variant {size align : Nat} {slot : TagSlot} {variants : List (Variant Shape)}
      {others : Option (List (Placed Shape))} {variant : Variant Shape}
      {values : List (List Symbol)} {whole : List Symbol} (member : variant ∈ variants)
      (each : List.Forall₂ (fun field value => Denotes catalog machine field.content value)
        variant.fields values)
      (composes : Symbol.Composes 0 size
        (⟨slot.offset, machine.byteOrder.encode slot.size (slot.twosComplement variant.tag)⟩ ::
          Placed.refill variant.fields values) whole) :
      Denotes catalog machine (.tagged size align slot variants others) whole
  /-- A tag that no variant has, and values of the fields for such tags. -/
  | others {size align : Nat} {slot : TagSlot} {variants : List (Variant Shape)}
      {fields : List (Placed Shape)} {bits : Nat} {values : List (List Symbol)}
      {whole : List Symbol} (inside : bits < Extent.numbers slot.size)
      (undeclared : ∀ variant ∈ variants, bits ≠ slot.twosComplement variant.tag)
      (each : List.Forall₂ (fun field value => Denotes catalog machine field.content value) fields
        values)
      (composes : Symbol.Composes 0 size
        (⟨slot.offset, machine.byteOrder.encode slot.size bits⟩ :: Placed.refill fields values)
        whole) :
      Denotes catalog machine (.tagged size align slot variants (some fields)) whole
  | array {element : Shape} {count : Count} {values : List (List Symbol)}
      (admitted : count.Admits values.length)
      (each : ∀ value ∈ values, Denotes catalog machine element value) :
      Denotes catalog machine (.array element count) values.flatten
  | thin {referent : Shape} {guarantee : Guarantee} (sized : ¬ referent.Unsized catalog machine) :
      Denotes catalog machine (.reference referent guarantee)
        [.reference guarantee machine.pointerSize]
  | wide {referent : Shape} {guarantee : Guarantee} (unsized : referent.Unsized catalog machine) :
      Denotes catalog machine (.reference referent guarantee)
        [.reference guarantee (Extent.satMul machine.pointerSize 2)]
  | sealed {name : String} {size align : Nat} {bytes : List UInt8} (length : bytes.length = size) :
      Denotes catalog machine (.sealed name size align) (bytes.map .byte)
  | named {id : DefId} {definition : Definition} {value : List Symbol}
      (found : catalog.get? id = some definition)
      (isValue : Denotes catalog machine definition.shape value) :
      Denotes catalog machine (.named id) value

end Shape

end Recast
