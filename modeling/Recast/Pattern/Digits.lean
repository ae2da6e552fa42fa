import Recast.Machine
import Recast.Pattern

/-!
# Numbers as bytes

The numbers of a range, written with a fixed number of bytes, are the union of a few products: one
set of values for each byte. A range is split at its most significant byte: the numbers that share
the byte of the lower end, those that share the byte of the upper end, and the full blocks in
between.
-/

namespace Recast.Pattern

abbrev Product := List ByteSet

/-- The products that make up the numbers from `first` to `last` written with `width` bytes. Where
an end is the end of a block of its most significant byte, it joins the full blocks. -/
def splitRange : (width first last : Nat) → List Product
  | 0, _, _ => [[]]
  | width + 1, first, last =>
    let block := Extent.numbers width
    let lowDigit := first / block
    let highDigit := last / block
    let low := first % block
    let high := last % block
    let digit (n : Nat) : ByteSet := {UInt8.ofNat n}
    if lowDigit = highDigit then
      (splitRange width low high).map (digit lowDigit :: ·)
    else
      let lowIsFull := low = 0
      let highIsFull := high = block - 1
      let lowPart :=
        if lowIsFull then [] else (splitRange width low (block - 1)).map (digit lowDigit :: ·)
      let firstFull := if lowIsFull then lowDigit else lowDigit + 1
      let lastFull := if highIsFull then highDigit else highDigit - 1
      let fullPart :=
        if firstFull ≤ lastFull then
          [.range (.ofNat firstFull) (.ofNat lastFull) :: List.replicate width .full]
        else []
      let highPart :=
        if highIsFull then [] else (splitRange width 0 high).map (digit highDigit :: ·)
      lowPart ++ fullPart ++ highPart

/-- A product as bytes in memory, in the given order; equal neighbours become repeats. -/
def ofProduct (order : ByteOrder) (product : Product) : Pattern :=
  let bytes := match order with
    | .little => product.reverse
    | .big => product
  let runs := bytes.splitBy (· == ·)
  let patterns := runs.map fun run =>
    (byte (.init (run.headD ∅))).replicate (.exact run.length)
  match patterns with
  | [pattern] => pattern
  | patterns => .seq patterns

/-- The numbers in some of the ranges, written with `width` bytes in the given order. -/
def ofRanges (order : ByteOrder) (width : Nat) (ranges : List Range) : Pattern :=
  let products := ranges.flatMap fun range => splitRange width range.first range.last
  match products.map (ofProduct order) with
  | [pattern] => pattern
  | patterns => .alt patterns

end Recast.Pattern
