import ImageCircuit.Image.Grid

/-!
# PNG files

* `Grid.png`: an image as a PNG file with 8-bit color channels, its data stored uncompressed
-/

namespace ImageCircuit.Png

/-- A number in `n` bytes, the highest first. -/
def bigEndian (n value : Nat) : List UInt8 :=
  (List.range n).reverse.map fun i => .ofNat (value >>> (8 * i))

/-- A number in `n` bytes, the lowest first. -/
def littleEndian (n value : Nat) : List UInt8 :=
  (List.range n).map fun i => .ofNat (value >>> (8 * i))

/-! ## Check sums -/

/-- Divides one more bit of a remainder by the check polynomial. -/
def crcBit (crc : UInt32) : UInt32 :=
  if crc &&& 1 = 1 then (crc >>> 1) ^^^ 0xEDB88320 else crc >>> 1

/-- Divides one more byte. -/
def crcByte (crc : UInt32) (byte : UInt8) : UInt32 :=
  (List.range 8).foldl (fun crc _ => crcBit crc) (crc ^^^ byte.toUInt32)

/-- The cyclic redundancy check of a chunk. -/
def crc (bytes : List UInt8) : UInt32 :=
  bytes.foldl crcByte 0xFFFFFFFF ^^^ 0xFFFFFFFF

/-- The Adler check sum of a data stream. -/
def adler (bytes : List UInt8) : Nat :=
  let (a, b) := bytes.foldl (fun (a, b) byte =>
    let a := (a + byte.toNat) % 65521
    (a, (b + a) % 65521)) (1, 0)
  b * 65536 + a

/-! ## Chunks -/

/-- A chunk with its length, name and check sum. -/
def chunk (name : String) (data : List UInt8) : List UInt8 :=
  let body := name.toUTF8.toList ++ data
  bigEndian 4 data.length ++ body ++ bigEndian 4 (crc body).toNat

/-- The most bytes that a stored block holds. -/
def blockSize : Nat := 65535

/-- The data cut into `count` stored blocks, the last one marked. -/
def storedBlocks : (count : Nat) → List UInt8 → List UInt8
  | 0, _ => []
  | count + 1, data =>
    let block := data.take blockSize
    let mark : UInt8 := if count = 0 then 1 else 0
    mark :: littleEndian 2 block.length ++ littleEndian 2 (65535 - block.length) ++ block ++
      storedBlocks count (data.drop blockSize)

/-- A data stream of stored blocks. -/
def zlib (data : List UInt8) : List UInt8 :=
  [0x78, 0x01] ++ storedBlocks (data.length / blockSize + 1) data ++ bigEndian 4 (adler data)

/-- Eight bits a channel, three color channels, and no interlacing. -/
def header (width height : Nat) : List UInt8 :=
  bigEndian 4 width ++ bigEndian 4 height ++ [8, 2, 0, 0, 0]

/-- The rows of an image, each behind the mark of an unfiltered row. -/
def scanLines (g : Grid) : List UInt8 :=
  g.rows.flatMap fun row => 0 :: row.flatMap Pixel.bytes

/-- The bytes that every PNG file starts with. -/
def signature : List UInt8 :=
  [0x89, 0x50, 0x4E, 0x47, 0x0D, 0x0A, 0x1A, 0x0A]

end Png

/-- The PNG file of an image. -/
def Grid.png (g : Grid) : List UInt8 :=
  Png.signature ++ Png.chunk "IHDR" (Png.header g.width g.height) ++
    Png.chunk "IDAT" (Png.zlib (Png.scanLines g)) ++ Png.chunk "IEND" []

end ImageCircuit
