import Mathlib.Data.BitVec
/-!
# HuffmanRoms — the code words of the Huffman encoder (`DC_ROM.vhd`, `AC_ROM.vhd`, `DC_CR_ROM.vhd`, `AC_CR_ROM.vhd`)

Each table gives the length and the code of a symbol: the size of a DC difference, or the run and the size of an AC
coefficient.
-/
namespace Hdmi2Usb
namespace Huffman

/-- A `case` of a ROM: the symbol, and the length and the code of its word. -/
abbrev RomTable := List (ℕ × ℕ × ℕ)

/-- What a ROM gives for an address; a symbol that has no word gets an empty one. -/
def RomTable.rom (t : RomTable) (addr : ℕ) : ℕ × ℕ := ((t.find? fun e => e.1 = addr).map Prod.snd).getD (0, 0)

/-- `DC_ROM` -/
def dcTable : RomTable :=
  [(0x0, 2, 0b00), (0x1, 3, 0b010), (0x2, 3, 0b011), (0x3, 3, 0b100), (0x4, 3, 0b101), (0x5, 3, 0b110),
   (0x6, 4, 0b1110), (0x7, 5, 0b11110), (0x8, 6, 0b111110), (0x9, 7, 0b1111110), (0xa, 8, 0b11111110),
   (0xb, 9, 0b111111110)]

/-- `DC_CR_ROM` -/
def dcCrTable : RomTable :=
  [(0x0, 2, 0b00), (0x1, 2, 0b01), (0x2, 2, 0b10), (0x3, 3, 0b110), (0x4, 4, 0b1110), (0x5, 5, 0b11110),
   (0x6, 6, 0b111110), (0x7, 7, 0b1111110), (0x8, 8, 0b11111110), (0x9, 9, 0b111111110), (0xa, 10, 0b1111111110),
   (0xb, 11, 0b11111111110)]

/-- `AC_ROM` -/
def acTable : RomTable :=
  [(0x00, 4, 0b1010), (0x01, 2, 0b00), (0x02, 2, 0b01), (0x03, 3, 0b100), (0x04, 4, 0b1011), (0x05, 5, 0b11010),
   (0x06, 7, 0b1111000), (0x07, 8, 0b11111000), (0x08, 10, 0b1111110110), (0x09, 16, 0b1111111110000010),
   (0x0a, 16, 0b1111111110000011), (0x11, 4, 0b1100), (0x12, 5, 0b11011), (0x13, 7, 0b1111001),
   (0x14, 9, 0b111110110), (0x15, 11, 0b11111110110), (0x16, 16, 0b1111111110000100), (0x17, 16, 0b1111111110000101),
   (0x18, 16, 0b1111111110000110), (0x19, 16, 0b1111111110000111), (0x1a, 16, 0b1111111110001000), (0x21, 5, 0b11100),
   (0x22, 8, 0b11111001), (0x23, 10, 0b1111110111), (0x24, 12, 0b111111110100), (0x25, 16, 0b1111111110001001),
   (0x26, 16, 0b1111111110001010), (0x27, 16, 0b1111111110001011), (0x28, 16, 0b1111111110001100),
   (0x29, 16, 0b1111111110001101), (0x2a, 16, 0b1111111110001110), (0x31, 6, 0b111010), (0x32, 9, 0b111110111),
   (0x33, 12, 0b111111110101), (0x34, 16, 0b1111111110001111), (0x35, 16, 0b1111111110010000),
   (0x36, 16, 0b1111111110010001), (0x37, 16, 0b1111111110010010), (0x38, 16, 0b1111111110010011),
   (0x39, 16, 0b1111111110010100), (0x3a, 16, 0b1111111110010101), (0x41, 6, 0b111011), (0x42, 10, 0b1111111000),
   (0x43, 16, 0b1111111110010110), (0x44, 16, 0b1111111110010111), (0x45, 16, 0b1111111110011000),
   (0x46, 16, 0b1111111110011001), (0x47, 16, 0b1111111110011010), (0x48, 16, 0b1111111110011011),
   (0x49, 16, 0b1111111110011100), (0x4a, 16, 0b1111111110011101), (0x51, 7, 0b1111010), (0x52, 11, 0b11111110111),
   (0x53, 16, 0b1111111110011110), (0x54, 16, 0b1111111110011111), (0x55, 16, 0b1111111110100000),
   (0x56, 16, 0b1111111110100001), (0x57, 16, 0b1111111110100010), (0x58, 16, 0b1111111110100011),
   (0x59, 16, 0b1111111110100100), (0x5a, 16, 0b1111111110100101), (0x61, 7, 0b1111011), (0x62, 12, 0b111111110110),
   (0x63, 16, 0b1111111110100110), (0x64, 16, 0b1111111110100111), (0x65, 16, 0b1111111110101000),
   (0x66, 16, 0b1111111110101001), (0x67, 16, 0b1111111110101010), (0x68, 16, 0b1111111110101011),
   (0x69, 16, 0b1111111110101100), (0x6a, 16, 0b1111111110101101), (0x71, 8, 0b11111010), (0x72, 12, 0b111111110111),
   (0x73, 16, 0b1111111110101110), (0x74, 16, 0b1111111110101111), (0x75, 16, 0b1111111110110000),
   (0x76, 16, 0b1111111110110001), (0x77, 16, 0b1111111110110010), (0x78, 16, 0b1111111110110011),
   (0x79, 16, 0b1111111110110100), (0x7a, 16, 0b1111111110110101), (0x81, 9, 0b111111000),
   (0x82, 15, 0b111111111000000), (0x83, 16, 0b1111111110110110), (0x84, 16, 0b1111111110110111),
   (0x85, 16, 0b1111111110111000), (0x86, 16, 0b1111111110111001), (0x87, 16, 0b1111111110111010),
   (0x88, 16, 0b1111111110111011), (0x89, 16, 0b1111111110111100), (0x8a, 16, 0b1111111110111101),
   (0x91, 9, 0b111111001), (0x92, 16, 0b1111111110111110), (0x93, 16, 0b1111111110111111),
   (0x94, 16, 0b1111111111000000), (0x95, 16, 0b1111111111000001), (0x96, 16, 0b1111111111000010),
   (0x97, 16, 0b1111111111000011), (0x98, 16, 0b1111111111000100), (0x99, 16, 0b1111111111000101),
   (0x9a, 16, 0b1111111111000110), (0xa1, 9, 0b111111010), (0xa2, 16, 0b1111111111000111),
   (0xa3, 16, 0b1111111111001000), (0xa4, 16, 0b1111111111001001), (0xa5, 16, 0b1111111111001010),
   (0xa6, 16, 0b1111111111001011), (0xa7, 16, 0b1111111111001100), (0xa8, 16, 0b1111111111001101),
   (0xa9, 16, 0b1111111111001110), (0xaa, 16, 0b1111111111001111), (0xb1, 10, 0b1111111001),
   (0xb2, 16, 0b1111111111010000), (0xb3, 16, 0b1111111111010001), (0xb4, 16, 0b1111111111010010),
   (0xb5, 16, 0b1111111111010011), (0xb6, 16, 0b1111111111010100), (0xb7, 16, 0b1111111111010101),
   (0xb8, 16, 0b1111111111010110), (0xb9, 16, 0b1111111111010111), (0xba, 16, 0b1111111111011000),
   (0xc1, 10, 0b1111111010), (0xc2, 16, 0b1111111111011001), (0xc3, 16, 0b1111111111011010),
   (0xc4, 16, 0b1111111111011011), (0xc5, 16, 0b1111111111011100), (0xc6, 16, 0b1111111111011101),
   (0xc7, 16, 0b1111111111011110), (0xc8, 16, 0b1111111111011111), (0xc9, 16, 0b1111111111100000),
   (0xca, 16, 0b1111111111100001), (0xd1, 11, 0b11111111000), (0xd2, 16, 0b1111111111100010),
   (0xd3, 16, 0b1111111111100011), (0xd4, 16, 0b1111111111100100), (0xd5, 16, 0b1111111111100101),
   (0xd6, 16, 0b1111111111100110), (0xd7, 16, 0b1111111111100111), (0xd8, 16, 0b1111111111101000),
   (0xd9, 16, 0b1111111111101001), (0xda, 16, 0b1111111111101010), (0xe1, 16, 0b1111111111101011),
   (0xe2, 16, 0b1111111111101100), (0xe3, 16, 0b1111111111101101), (0xe4, 16, 0b1111111111101110),
   (0xe5, 16, 0b1111111111101111), (0xe6, 16, 0b1111111111110000), (0xe7, 16, 0b1111111111110001),
   (0xe8, 16, 0b1111111111110010), (0xe9, 16, 0b1111111111110011), (0xea, 16, 0b1111111111110100),
   (0xf0, 11, 0b11111111001), (0xf1, 16, 0b1111111111110101), (0xf2, 16, 0b1111111111110110),
   (0xf3, 16, 0b1111111111110111), (0xf4, 16, 0b1111111111111000), (0xf5, 16, 0b1111111111111001),
   (0xf6, 16, 0b1111111111111010), (0xf7, 16, 0b1111111111111011), (0xf8, 16, 0b1111111111111100),
   (0xf9, 16, 0b1111111111111101), (0xfa, 16, 0b1111111111111110)]

/-- `AC_CR_ROM` -/
def acCrTable : RomTable :=
  [(0x00, 2, 0b00), (0x01, 2, 0b01), (0x02, 3, 0b100), (0x03, 4, 0b1010), (0x04, 5, 0b11000), (0x05, 5, 0b11001),
   (0x06, 6, 0b111000), (0x07, 7, 0b1111000), (0x08, 9, 0b111110100), (0x09, 10, 0b1111110110),
   (0x0a, 12, 0b111111110100), (0x11, 4, 0b1011), (0x12, 6, 0b111001), (0x13, 8, 0b11110110), (0x14, 9, 0b111110101),
   (0x15, 11, 0b11111110110), (0x16, 12, 0b111111110101), (0x17, 16, 0b1111111110001000),
   (0x18, 16, 0b1111111110001001), (0x19, 16, 0b1111111110001010), (0x1a, 16, 0b1111111110001011), (0x21, 5, 0b11010),
   (0x22, 8, 0b11110111), (0x23, 10, 0b1111110111), (0x24, 12, 0b111111110110), (0x25, 15, 0b111111111000010),
   (0x26, 16, 0b1111111110001100), (0x27, 16, 0b1111111110001101), (0x28, 16, 0b1111111110001110),
   (0x29, 16, 0b1111111110001111), (0x2a, 16, 0b1111111110010000), (0x31, 5, 0b11011), (0x32, 8, 0b11111000),
   (0x33, 10, 0b1111111000), (0x34, 12, 0b111111110111), (0x35, 16, 0b1111111110010001),
   (0x36, 16, 0b1111111110010010), (0x37, 16, 0b1111111110010011), (0x38, 16, 0b1111111110010100),
   (0x39, 16, 0b1111111110010101), (0x3a, 16, 0b1111111110010110), (0x41, 6, 0b111010), (0x42, 9, 0b111110110),
   (0x43, 16, 0b1111111110010111), (0x44, 16, 0b1111111110011000), (0x45, 16, 0b1111111110011001),
   (0x46, 16, 0b1111111110011010), (0x47, 16, 0b1111111110011011), (0x48, 16, 0b1111111110011100),
   (0x49, 16, 0b1111111110011101), (0x4a, 16, 0b1111111110011110), (0x51, 6, 0b111011), (0x52, 10, 0b1111111001),
   (0x53, 16, 0b1111111110011111), (0x54, 16, 0b1111111110100000), (0x55, 16, 0b1111111110100001),
   (0x56, 16, 0b1111111110100010), (0x57, 16, 0b1111111110100011), (0x58, 16, 0b1111111110100100),
   (0x59, 16, 0b1111111110100101), (0x5a, 16, 0b1111111110100110), (0x61, 7, 0b1111001), (0x62, 11, 0b11111110111),
   (0x63, 16, 0b1111111110100111), (0x64, 16, 0b1111111110101000), (0x65, 16, 0b1111111110101001),
   (0x66, 16, 0b1111111110101010), (0x67, 16, 0b1111111110101011), (0x68, 16, 0b1111111110101100),
   (0x69, 16, 0b1111111110101101), (0x6a, 16, 0b1111111110101110), (0x71, 7, 0b1111010), (0x72, 11, 0b11111111000),
   (0x73, 16, 0b1111111110101111), (0x74, 16, 0b1111111110110000), (0x75, 16, 0b1111111110110001),
   (0x76, 16, 0b1111111110110010), (0x77, 16, 0b1111111110110011), (0x78, 16, 0b1111111110110100),
   (0x79, 16, 0b1111111110110101), (0x7a, 16, 0b1111111110110110), (0x81, 8, 0b11111001),
   (0x82, 16, 0b1111111110110111), (0x83, 16, 0b1111111110111000), (0x84, 16, 0b1111111110111001),
   (0x85, 16, 0b1111111110111010), (0x86, 16, 0b1111111110111011), (0x87, 16, 0b1111111110111100),
   (0x88, 16, 0b1111111110111101), (0x89, 16, 0b1111111110111110), (0x8a, 16, 0b1111111110111111),
   (0x91, 9, 0b111110111), (0x92, 16, 0b1111111111000000), (0x93, 16, 0b1111111111000001),
   (0x94, 16, 0b1111111111000010), (0x95, 16, 0b1111111111000011), (0x96, 16, 0b1111111111000100),
   (0x97, 16, 0b1111111111000101), (0x98, 16, 0b1111111111000110), (0x99, 16, 0b1111111111000111),
   (0x9a, 16, 0b1111111111001000), (0xa1, 9, 0b111111000), (0xa2, 16, 0b1111111111001001),
   (0xa3, 16, 0b1111111111001010), (0xa4, 16, 0b1111111111001011), (0xa5, 16, 0b1111111111001100),
   (0xa6, 16, 0b1111111111001101), (0xa7, 16, 0b1111111111001110), (0xa8, 16, 0b1111111111001111),
   (0xa9, 16, 0b1111111111010000), (0xaa, 16, 0b1111111111010001), (0xb1, 9, 0b111111001),
   (0xb2, 16, 0b1111111111010010), (0xb3, 16, 0b1111111111010011), (0xb4, 16, 0b1111111111010100),
   (0xb5, 16, 0b1111111111010101), (0xb6, 16, 0b1111111111010110), (0xb7, 16, 0b1111111111010111),
   (0xb8, 16, 0b1111111111011000), (0xb9, 16, 0b1111111111011001), (0xba, 16, 0b1111111111011010),
   (0xc1, 9, 0b111111010), (0xc2, 16, 0b1111111111011011), (0xc3, 16, 0b1111111111011100),
   (0xc4, 16, 0b1111111111011101), (0xc5, 16, 0b1111111111011110), (0xc6, 16, 0b1111111111011111),
   (0xc7, 16, 0b1111111111100000), (0xc8, 16, 0b1111111111100001), (0xc9, 16, 0b1111111111100010),
   (0xca, 16, 0b1111111111100011), (0xd1, 11, 0b11111111001), (0xd2, 16, 0b1111111111100100),
   (0xd3, 16, 0b1111111111100101), (0xd4, 16, 0b1111111111100110), (0xd5, 16, 0b1111111111100111),
   (0xd6, 16, 0b1111111111101000), (0xd7, 16, 0b1111111111101001), (0xd8, 16, 0b1111111111101010),
   (0xd9, 16, 0b1111111111101011), (0xda, 16, 0b1111111111101100), (0xe1, 14, 0b11111111100000),
   (0xe2, 16, 0b1111111111101101), (0xe3, 16, 0b1111111111101110), (0xe4, 16, 0b1111111111101111),
   (0xe5, 16, 0b1111111111110000), (0xe6, 16, 0b1111111111110001), (0xe7, 16, 0b1111111111110010),
   (0xe8, 16, 0b1111111111110011), (0xe9, 16, 0b1111111111110100), (0xea, 16, 0b1111111111110101),
   (0xf0, 10, 0b1111111010), (0xf1, 15, 0b111111111000011), (0xf2, 16, 0b1111111111110110),
   (0xf3, 16, 0b1111111111110111), (0xf4, 16, 0b1111111111111000), (0xf5, 16, 0b1111111111111001),
   (0xf6, 16, 0b1111111111111010), (0xf7, 16, 0b1111111111111011), (0xf8, 16, 0b1111111111111100),
   (0xf9, 16, 0b1111111111111101), (0xfa, 16, 0b1111111111111110)]

def dcRom (vliSize : BitVec 4) : BitVec 4 × BitVec 9 :=
  let e := dcTable.rom vliSize.toNat
  (BitVec.ofNat 4 e.1, BitVec.ofNat 9 e.2)

def dcCrRom (vliSize : BitVec 4) : BitVec 4 × BitVec 11 :=
  let e := dcCrTable.rom vliSize.toNat
  (BitVec.ofNat 4 e.1, BitVec.ofNat 11 e.2)

def acRom (runlength vliSize : BitVec 4) : BitVec 5 × BitVec 16 :=
  let e := acTable.rom (runlength ++ vliSize).toNat
  (BitVec.ofNat 5 e.1, BitVec.ofNat 16 e.2)

def acCrRom (runlength vliSize : BitVec 4) : BitVec 5 × BitVec 16 :=
  let e := acCrTable.rom (runlength ++ vliSize).toNat
  (BitVec.ofNat 5 e.1, BitVec.ofNat 16 e.2)

end Huffman
end Hdmi2Usb
