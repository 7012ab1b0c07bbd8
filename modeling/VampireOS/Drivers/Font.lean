/-!
# The font (kernel/fb.c:35-132)
-/

namespace VampireOS.Framebuffer

/-- The rows of a glyph, the highest bit of a row leftmost. -/
abbrev Glyph := List UInt8

/-- ASCII 32 to 126. -/
def font8x8 : List Glyph := [
  [0x00, 0x00, 0x00, 0x00, 0x00, 0x00, 0x00, 0x00],
  [0x18, 0x18, 0x18, 0x18, 0x18, 0x00, 0x18, 0x00],
  [0x6C, 0x6C, 0x24, 0x00, 0x00, 0x00, 0x00, 0x00],
  [0x6C, 0x6C, 0xFE, 0x6C, 0xFE, 0x6C, 0x6C, 0x00],
  [0x18, 0x3E, 0x58, 0x3C, 0x1A, 0x7C, 0x18, 0x00],
  [0x62, 0x66, 0x0C, 0x18, 0x30, 0x66, 0x46, 0x00],
  [0x38, 0x6C, 0x38, 0x76, 0xDC, 0xCC, 0x76, 0x00],
  [0x18, 0x18, 0x10, 0x00, 0x00, 0x00, 0x00, 0x00],
  [0x0C, 0x18, 0x30, 0x30, 0x30, 0x18, 0x0C, 0x00],
  [0x30, 0x18, 0x0C, 0x0C, 0x0C, 0x18, 0x30, 0x00],
  [0x00, 0x66, 0x3C, 0xFF, 0x3C, 0x66, 0x00, 0x00],
  [0x00, 0x18, 0x18, 0x7E, 0x18, 0x18, 0x00, 0x00],
  [0x00, 0x00, 0x00, 0x00, 0x00, 0x18, 0x18, 0x30],
  [0x00, 0x00, 0x00, 0x7E, 0x00, 0x00, 0x00, 0x00],
  [0x00, 0x00, 0x00, 0x00, 0x00, 0x18, 0x18, 0x00],
  [0x02, 0x06, 0x0C, 0x18, 0x30, 0x60, 0x40, 0x00],
  [0x3C, 0x66, 0x6E, 0x76, 0x66, 0x66, 0x3C, 0x00],
  [0x18, 0x38, 0x18, 0x18, 0x18, 0x18, 0x7E, 0x00],
  [0x3C, 0x66, 0x06, 0x0C, 0x18, 0x30, 0x7E, 0x00],
  [0x3C, 0x66, 0x06, 0x1C, 0x06, 0x66, 0x3C, 0x00],
  [0x0C, 0x1C, 0x3C, 0x6C, 0x7E, 0x0C, 0x0C, 0x00],
  [0x7E, 0x60, 0x7C, 0x06, 0x06, 0x66, 0x3C, 0x00],
  [0x1C, 0x30, 0x60, 0x7C, 0x66, 0x66, 0x3C, 0x00],
  [0x7E, 0x06, 0x0C, 0x18, 0x30, 0x30, 0x30, 0x00],
  [0x3C, 0x66, 0x66, 0x3C, 0x66, 0x66, 0x3C, 0x00],
  [0x3C, 0x66, 0x66, 0x3E, 0x06, 0x0C, 0x38, 0x00],
  [0x00, 0x18, 0x18, 0x00, 0x00, 0x18, 0x18, 0x00],
  [0x00, 0x18, 0x18, 0x00, 0x00, 0x18, 0x18, 0x30],
  [0x0C, 0x18, 0x30, 0x60, 0x30, 0x18, 0x0C, 0x00],
  [0x00, 0x00, 0x7E, 0x00, 0x7E, 0x00, 0x00, 0x00],
  [0x30, 0x18, 0x0C, 0x06, 0x0C, 0x18, 0x30, 0x00],
  [0x3C, 0x66, 0x06, 0x0C, 0x18, 0x00, 0x18, 0x00],
  [0x3C, 0x66, 0x6E, 0x6A, 0x6E, 0x60, 0x3C, 0x00],
  [0x18, 0x3C, 0x66, 0x66, 0x7E, 0x66, 0x66, 0x00],
  [0x7C, 0x66, 0x66, 0x7C, 0x66, 0x66, 0x7C, 0x00],
  [0x3C, 0x66, 0x60, 0x60, 0x60, 0x66, 0x3C, 0x00],
  [0x78, 0x6C, 0x66, 0x66, 0x66, 0x6C, 0x78, 0x00],
  [0x7E, 0x60, 0x60, 0x7C, 0x60, 0x60, 0x7E, 0x00],
  [0x7E, 0x60, 0x60, 0x7C, 0x60, 0x60, 0x60, 0x00],
  [0x3C, 0x66, 0x60, 0x6E, 0x66, 0x66, 0x3C, 0x00],
  [0x66, 0x66, 0x66, 0x7E, 0x66, 0x66, 0x66, 0x00],
  [0x7E, 0x18, 0x18, 0x18, 0x18, 0x18, 0x7E, 0x00],
  [0x1E, 0x0C, 0x0C, 0x0C, 0x0C, 0x6C, 0x38, 0x00],
  [0x66, 0x6C, 0x78, 0x70, 0x78, 0x6C, 0x66, 0x00],
  [0x60, 0x60, 0x60, 0x60, 0x60, 0x60, 0x7E, 0x00],
  [0xC6, 0xEE, 0xFE, 0xD6, 0xC6, 0xC6, 0xC6, 0x00],
  [0x66, 0x76, 0x7E, 0x7E, 0x6E, 0x66, 0x66, 0x00],
  [0x3C, 0x66, 0x66, 0x66, 0x66, 0x66, 0x3C, 0x00],
  [0x7C, 0x66, 0x66, 0x7C, 0x60, 0x60, 0x60, 0x00],
  [0x3C, 0x66, 0x66, 0x66, 0x76, 0x6C, 0x36, 0x00],
  [0x7C, 0x66, 0x66, 0x7C, 0x78, 0x6C, 0x66, 0x00],
  [0x3C, 0x66, 0x60, 0x3C, 0x06, 0x66, 0x3C, 0x00],
  [0x7E, 0x18, 0x18, 0x18, 0x18, 0x18, 0x18, 0x00],
  [0x66, 0x66, 0x66, 0x66, 0x66, 0x66, 0x3C, 0x00],
  [0x66, 0x66, 0x66, 0x66, 0x66, 0x3C, 0x18, 0x00],
  [0xC6, 0xC6, 0xC6, 0xD6, 0xFE, 0xEE, 0xC6, 0x00],
  [0x66, 0x66, 0x3C, 0x18, 0x3C, 0x66, 0x66, 0x00],
  [0x66, 0x66, 0x66, 0x3C, 0x18, 0x18, 0x18, 0x00],
  [0x7E, 0x06, 0x0C, 0x18, 0x30, 0x60, 0x7E, 0x00],
  [0x3C, 0x30, 0x30, 0x30, 0x30, 0x30, 0x3C, 0x00],
  [0x40, 0x60, 0x30, 0x18, 0x0C, 0x06, 0x02, 0x00],
  [0x3C, 0x0C, 0x0C, 0x0C, 0x0C, 0x0C, 0x3C, 0x00],
  [0x18, 0x3C, 0x66, 0x00, 0x00, 0x00, 0x00, 0x00],
  [0x00, 0x00, 0x00, 0x00, 0x00, 0x00, 0x00, 0xFF],
  [0x18, 0x18, 0x08, 0x00, 0x00, 0x00, 0x00, 0x00],
  [0x00, 0x00, 0x3C, 0x06, 0x3E, 0x66, 0x3E, 0x00],
  [0x60, 0x60, 0x7C, 0x66, 0x66, 0x66, 0x7C, 0x00],
  [0x00, 0x00, 0x3C, 0x66, 0x60, 0x66, 0x3C, 0x00],
  [0x06, 0x06, 0x3E, 0x66, 0x66, 0x66, 0x3E, 0x00],
  [0x00, 0x00, 0x3C, 0x66, 0x7E, 0x60, 0x3C, 0x00],
  [0x1C, 0x30, 0x7C, 0x30, 0x30, 0x30, 0x30, 0x00],
  [0x00, 0x00, 0x3E, 0x66, 0x66, 0x3E, 0x06, 0x3C],
  [0x60, 0x60, 0x7C, 0x66, 0x66, 0x66, 0x66, 0x00],
  [0x18, 0x00, 0x38, 0x18, 0x18, 0x18, 0x3C, 0x00],
  [0x0C, 0x00, 0x1C, 0x0C, 0x0C, 0x0C, 0x6C, 0x38],
  [0x60, 0x60, 0x66, 0x6C, 0x78, 0x6C, 0x66, 0x00],
  [0x38, 0x18, 0x18, 0x18, 0x18, 0x18, 0x3C, 0x00],
  [0x00, 0x00, 0xEC, 0xFE, 0xD6, 0xC6, 0xC6, 0x00],
  [0x00, 0x00, 0x7C, 0x66, 0x66, 0x66, 0x66, 0x00],
  [0x00, 0x00, 0x3C, 0x66, 0x66, 0x66, 0x3C, 0x00],
  [0x00, 0x00, 0x7C, 0x66, 0x66, 0x7C, 0x60, 0x60],
  [0x00, 0x00, 0x3E, 0x66, 0x66, 0x3E, 0x06, 0x06],
  [0x00, 0x00, 0x6C, 0x76, 0x60, 0x60, 0x60, 0x00],
  [0x00, 0x00, 0x3E, 0x60, 0x3C, 0x06, 0x7C, 0x00],
  [0x30, 0x30, 0x7C, 0x30, 0x30, 0x30, 0x1C, 0x00],
  [0x00, 0x00, 0x66, 0x66, 0x66, 0x66, 0x3E, 0x00],
  [0x00, 0x00, 0x66, 0x66, 0x66, 0x3C, 0x18, 0x00],
  [0x00, 0x00, 0xC6, 0xD6, 0xFE, 0x7C, 0x6C, 0x00],
  [0x00, 0x00, 0x66, 0x3C, 0x18, 0x3C, 0x66, 0x00],
  [0x00, 0x00, 0x66, 0x66, 0x66, 0x3E, 0x06, 0x3C],
  [0x00, 0x00, 0x7E, 0x0C, 0x18, 0x30, 0x7E, 0x00],
  [0x0E, 0x18, 0x18, 0x70, 0x18, 0x18, 0x0E, 0x00],
  [0x18, 0x18, 0x18, 0x18, 0x18, 0x18, 0x18, 0x00],
  [0x70, 0x18, 0x18, 0x0E, 0x18, 0x18, 0x70, 0x00],
  [0x32, 0x4C, 0x00, 0x00, 0x00, 0x00, 0x00, 0x00]
]

end VampireOS.Framebuffer
