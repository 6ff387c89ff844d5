import ForthJit.Text.CodePoint

/-!
# Properties of characters that matter to clusters

What a reader takes for one character may be written as several.  Which characters go together
depends on a few properties, given here by the code points that have them as of Unicode 17.
-/

namespace ForthJit.Text.Grapheme

/-- Controls and separators, carriage return and line feed apart. -/
def controlRanges : Ranges :=
  [(0x0, 10), (0xB, 2), (0xE, 18), (0x7F, 33), (0xAD, 1), (0x61C, 1), (0x180E, 1), (0x200B, 1),
    (0x200E, 2), (0x2028, 7), (0x2060, 16), (0xFEFF, 1), (0xFFF0, 12), (0x13430, 16), (0x1BCA0, 4),
    (0x1D173, 8), (0xE0000, 32), (0xE0080, 128), (0xE01F0, 3600)]

/-- Marks that extend the character before them. -/
def extendRanges : Ranges :=
  [(0x300, 112), (0x483, 7), (0x591, 45), (0x5BF, 1), (0x5C1, 2), (0x5C4, 2), (0x5C7, 1),
    (0x610, 11), (0x64B, 21), (0x670, 1), (0x6D6, 7), (0x6DF, 6), (0x6E7, 2), (0x6EA, 4),
    (0x711, 1), (0x730, 27), (0x7A6, 11), (0x7EB, 9), (0x7FD, 1), (0x816, 4), (0x81B, 9),
    (0x825, 3), (0x829, 5), (0x859, 3), (0x897, 9), (0x8CA, 24), (0x8E3, 32), (0x93A, 1),
    (0x93C, 1), (0x941, 8), (0x94D, 1), (0x951, 7), (0x962, 2), (0x981, 1), (0x9BC, 1), (0x9BE, 1),
    (0x9C1, 4), (0x9CD, 1), (0x9D7, 1), (0x9E2, 2), (0x9FE, 1), (0xA01, 2), (0xA3C, 1), (0xA41, 2),
    (0xA47, 2), (0xA4B, 3), (0xA51, 1), (0xA70, 2), (0xA75, 1), (0xA81, 2), (0xABC, 1), (0xAC1, 5),
    (0xAC7, 2), (0xACD, 1), (0xAE2, 2), (0xAFA, 6), (0xB01, 1), (0xB3C, 1), (0xB3E, 2), (0xB41, 4),
    (0xB4D, 1), (0xB55, 3), (0xB62, 2), (0xB82, 1), (0xBBE, 1), (0xBC0, 1), (0xBCD, 1), (0xBD7, 1),
    (0xC00, 1), (0xC04, 1), (0xC3C, 1), (0xC3E, 3), (0xC46, 3), (0xC4A, 4), (0xC55, 2), (0xC62, 2),
    (0xC81, 1), (0xCBC, 1), (0xCBF, 2), (0xCC2, 1), (0xCC6, 3), (0xCCA, 4), (0xCD5, 2), (0xCE2, 2),
    (0xD00, 2), (0xD3B, 2), (0xD3E, 1), (0xD41, 4), (0xD4D, 1), (0xD57, 1), (0xD62, 2), (0xD81, 1),
    (0xDCA, 1), (0xDCF, 1), (0xDD2, 3), (0xDD6, 1), (0xDDF, 1), (0xE31, 1), (0xE34, 7), (0xE47, 8),
    (0xEB1, 1), (0xEB4, 9), (0xEC8, 7), (0xF18, 2), (0xF35, 1), (0xF37, 1), (0xF39, 1), (0xF71, 14),
    (0xF80, 5), (0xF86, 2), (0xF8D, 11), (0xF99, 36), (0xFC6, 1), (0x102D, 4), (0x1032, 6),
    (0x1039, 2), (0x103D, 2), (0x1058, 2), (0x105E, 3), (0x1071, 4), (0x1082, 1), (0x1085, 2),
    (0x108D, 1), (0x109D, 1), (0x135D, 3), (0x1712, 4), (0x1732, 3), (0x1752, 2), (0x1772, 2),
    (0x17B4, 2), (0x17B7, 7), (0x17C6, 1), (0x17C9, 11), (0x17DD, 1), (0x180B, 3), (0x180F, 1),
    (0x1885, 2), (0x18A9, 1), (0x1920, 3), (0x1927, 2), (0x1932, 1), (0x1939, 3), (0x1A17, 2),
    (0x1A1B, 1), (0x1A56, 1), (0x1A58, 7), (0x1A60, 1), (0x1A62, 1), (0x1A65, 8), (0x1A73, 10),
    (0x1A7F, 1), (0x1AB0, 46), (0x1AE0, 12), (0x1B00, 4), (0x1B34, 10), (0x1B42, 3), (0x1B6B, 9),
    (0x1B80, 2), (0x1BA2, 4), (0x1BA8, 6), (0x1BE6, 1), (0x1BE8, 2), (0x1BED, 1), (0x1BEF, 5),
    (0x1C2C, 8), (0x1C36, 2), (0x1CD0, 3), (0x1CD4, 13), (0x1CE2, 7), (0x1CED, 1), (0x1CF4, 1),
    (0x1CF8, 2), (0x1DC0, 64), (0x200C, 1), (0x20D0, 33), (0x2CEF, 3), (0x2D7F, 1), (0x2DE0, 32),
    (0x302A, 6), (0x3099, 2), (0xA66F, 4), (0xA674, 10), (0xA69E, 2), (0xA6F0, 2), (0xA802, 1),
    (0xA806, 1), (0xA80B, 1), (0xA825, 2), (0xA82C, 1), (0xA8C4, 2), (0xA8E0, 18), (0xA8FF, 1),
    (0xA926, 8), (0xA947, 11), (0xA953, 1), (0xA980, 3), (0xA9B3, 1), (0xA9B6, 4), (0xA9BC, 2),
    (0xA9C0, 1), (0xA9E5, 1), (0xAA29, 6), (0xAA31, 2), (0xAA35, 2), (0xAA43, 1), (0xAA4C, 1),
    (0xAA7C, 1), (0xAAB0, 1), (0xAAB2, 3), (0xAAB7, 2), (0xAABE, 2), (0xAAC1, 1), (0xAAEC, 2),
    (0xAAF6, 1), (0xABE5, 1), (0xABE8, 1), (0xABED, 1), (0xFB1E, 1), (0xFE00, 16), (0xFE20, 16),
    (0xFF9E, 2), (0x101FD, 1), (0x102E0, 1), (0x10376, 5), (0x10A01, 3), (0x10A05, 2), (0x10A0C, 4),
    (0x10A38, 3), (0x10A3F, 1), (0x10AE5, 2), (0x10D24, 4), (0x10D69, 5), (0x10EAB, 2),
    (0x10EFA, 6), (0x10F46, 11), (0x10F82, 4), (0x11001, 1), (0x11038, 15), (0x11070, 1),
    (0x11073, 2), (0x1107F, 3), (0x110B3, 4), (0x110B9, 2), (0x110C2, 1), (0x11100, 3),
    (0x11127, 5), (0x1112D, 8), (0x11173, 1), (0x11180, 2), (0x111B6, 9), (0x111C0, 1),
    (0x111C9, 4), (0x111CF, 1), (0x1122F, 3), (0x11234, 4), (0x1123E, 1), (0x11241, 1),
    (0x112DF, 1), (0x112E3, 8), (0x11300, 2), (0x1133B, 2), (0x1133E, 1), (0x11340, 1),
    (0x1134D, 1), (0x11357, 1), (0x11366, 7), (0x11370, 5), (0x113B8, 1), (0x113BB, 6),
    (0x113C2, 1), (0x113C5, 1), (0x113C7, 3), (0x113CE, 3), (0x113D2, 1), (0x113E1, 2),
    (0x11438, 8), (0x11442, 3), (0x11446, 1), (0x1145E, 1), (0x114B0, 1), (0x114B3, 6),
    (0x114BA, 1), (0x114BD, 1), (0x114BF, 2), (0x114C2, 2), (0x115AF, 1), (0x115B2, 4),
    (0x115BC, 2), (0x115BF, 2), (0x115DC, 2), (0x11633, 8), (0x1163D, 1), (0x1163F, 2),
    (0x116AB, 1), (0x116AD, 1), (0x116B0, 8), (0x1171D, 1), (0x1171F, 1), (0x11722, 4),
    (0x11727, 5), (0x1182F, 9), (0x11839, 2), (0x11930, 1), (0x1193B, 4), (0x11943, 1),
    (0x119D4, 4), (0x119DA, 2), (0x119E0, 1), (0x11A01, 10), (0x11A33, 6), (0x11A3B, 4),
    (0x11A47, 1), (0x11A51, 6), (0x11A59, 3), (0x11A8A, 13), (0x11A98, 2), (0x11B60, 1),
    (0x11B62, 3), (0x11B66, 1), (0x11C30, 7), (0x11C38, 6), (0x11C3F, 1), (0x11C92, 22),
    (0x11CAA, 7), (0x11CB2, 2), (0x11CB5, 2), (0x11D31, 6), (0x11D3A, 1), (0x11D3C, 2),
    (0x11D3F, 7), (0x11D47, 1), (0x11D90, 2), (0x11D95, 1), (0x11D97, 1), (0x11EF3, 2),
    (0x11F00, 2), (0x11F36, 5), (0x11F40, 3), (0x11F5A, 1), (0x13440, 1), (0x13447, 15),
    (0x1611E, 12), (0x1612D, 3), (0x16AF0, 5), (0x16B30, 7), (0x16F4F, 1), (0x16F8F, 4),
    (0x16FE4, 1), (0x16FF0, 2), (0x1BC9D, 2), (0x1CF00, 46), (0x1CF30, 23), (0x1D165, 5),
    (0x1D16D, 6), (0x1D17B, 8), (0x1D185, 7), (0x1D1AA, 4), (0x1D242, 3), (0x1DA00, 55),
    (0x1DA3B, 50), (0x1DA75, 1), (0x1DA84, 1), (0x1DA9B, 5), (0x1DAA1, 15), (0x1E000, 7),
    (0x1E008, 17), (0x1E01B, 7), (0x1E023, 2), (0x1E026, 5), (0x1E08F, 1), (0x1E130, 7),
    (0x1E2AE, 1), (0x1E2EC, 4), (0x1E4EC, 4), (0x1E5EE, 2), (0x1E6E3, 1), (0x1E6E6, 1),
    (0x1E6EE, 2), (0x1E6F5, 1), (0x1E8D0, 7), (0x1E944, 7), (0x1F3FB, 5), (0xE0020, 96),
    (0xE0100, 240)]

/-- Marks that take up space of their own but belong to the character before them. -/
def spacingRanges : Ranges :=
  [(0x903, 1), (0x93B, 1), (0x93E, 3), (0x949, 4), (0x94E, 2), (0x982, 2), (0x9BF, 2), (0x9C7, 2),
    (0x9CB, 2), (0xA03, 1), (0xA3E, 3), (0xA83, 1), (0xABE, 3), (0xAC9, 1), (0xACB, 2), (0xB02, 2),
    (0xB40, 1), (0xB47, 2), (0xB4B, 2), (0xBBF, 1), (0xBC1, 2), (0xBC6, 3), (0xBCA, 3), (0xC01, 3),
    (0xC41, 4), (0xC82, 2), (0xCBE, 1), (0xCC1, 1), (0xCC3, 2), (0xCF3, 1), (0xD02, 2), (0xD3F, 2),
    (0xD46, 3), (0xD4A, 3), (0xD82, 2), (0xDD0, 2), (0xDD8, 7), (0xDF2, 2), (0xE33, 1), (0xEB3, 1),
    (0xF3E, 2), (0xF7F, 1), (0x1031, 1), (0x103B, 2), (0x1056, 2), (0x1084, 1), (0x17B6, 1),
    (0x17BE, 8), (0x17C7, 2), (0x1923, 4), (0x1929, 3), (0x1930, 2), (0x1933, 6), (0x1A19, 2),
    (0x1A55, 1), (0x1A57, 1), (0x1A6D, 6), (0x1B04, 1), (0x1B3E, 4), (0x1B82, 1), (0x1BA1, 1),
    (0x1BA6, 2), (0x1BE7, 1), (0x1BEA, 3), (0x1BEE, 1), (0x1C24, 8), (0x1C34, 2), (0x1CE1, 1),
    (0x1CF7, 1), (0xA823, 2), (0xA827, 1), (0xA880, 2), (0xA8B4, 16), (0xA952, 1), (0xA983, 1),
    (0xA9B4, 2), (0xA9BA, 2), (0xA9BE, 2), (0xAA2F, 2), (0xAA33, 2), (0xAA4D, 1), (0xAAEB, 1),
    (0xAAEE, 2), (0xAAF5, 1), (0xABE3, 2), (0xABE6, 2), (0xABE9, 2), (0xABEC, 1), (0x11000, 1),
    (0x11002, 1), (0x11082, 1), (0x110B0, 3), (0x110B7, 2), (0x1112C, 1), (0x11145, 2),
    (0x11182, 1), (0x111B3, 3), (0x111BF, 1), (0x111CE, 1), (0x1122C, 3), (0x11232, 2),
    (0x112E0, 3), (0x11302, 2), (0x1133F, 1), (0x11341, 4), (0x11347, 2), (0x1134B, 2),
    (0x11362, 2), (0x113B9, 2), (0x113CA, 1), (0x113CC, 2), (0x11435, 3), (0x11440, 2),
    (0x11445, 1), (0x114B1, 2), (0x114B9, 1), (0x114BB, 2), (0x114BE, 1), (0x114C1, 1),
    (0x115B0, 2), (0x115B8, 4), (0x115BE, 1), (0x11630, 3), (0x1163B, 2), (0x1163E, 1),
    (0x116AC, 1), (0x116AE, 2), (0x1171E, 1), (0x11726, 1), (0x1182C, 3), (0x11838, 1),
    (0x11931, 5), (0x11937, 2), (0x11940, 1), (0x11942, 1), (0x119D1, 3), (0x119DC, 4),
    (0x119E4, 1), (0x11A39, 1), (0x11A57, 2), (0x11A97, 1), (0x11B61, 1), (0x11B65, 1),
    (0x11B67, 1), (0x11C2F, 1), (0x11C3E, 1), (0x11CA9, 1), (0x11CB1, 1), (0x11CB4, 1),
    (0x11D8A, 5), (0x11D93, 2), (0x11D96, 1), (0x11EF5, 2), (0x11F03, 1), (0x11F34, 2),
    (0x11F3E, 2), (0x1612A, 3), (0x16F51, 55)]

/-- Signs that belong to the character after them. -/
def prependRanges : Ranges :=
  [(0x600, 6), (0x6DD, 1), (0x70F, 1), (0x890, 2), (0x8E2, 1), (0xD4E, 1), (0x110BD, 1),
    (0x110CD, 1), (0x111C2, 2), (0x113D1, 1), (0x1193F, 1), (0x11941, 1), (0x11A84, 6),
    (0x11D46, 1), (0x11F02, 1)]

/-- Pictographs, which a joiner may connect. -/
def pictographRanges : Ranges :=
  [(0xA9, 1), (0xAE, 1), (0x203C, 1), (0x2049, 1), (0x2122, 1), (0x2139, 1), (0x2194, 6),
    (0x21A9, 2), (0x231A, 2), (0x2328, 1), (0x23CF, 1), (0x23E9, 11), (0x23F8, 3), (0x24C2, 1),
    (0x25AA, 2), (0x25B6, 1), (0x25C0, 1), (0x25FB, 4), (0x2600, 5), (0x260E, 1), (0x2611, 1),
    (0x2614, 2), (0x2618, 1), (0x261D, 1), (0x2620, 1), (0x2622, 2), (0x2626, 1), (0x262A, 1),
    (0x262E, 2), (0x2638, 3), (0x2640, 1), (0x2642, 1), (0x2648, 12), (0x265F, 2), (0x2663, 1),
    (0x2665, 2), (0x2668, 1), (0x267B, 1), (0x267E, 2), (0x2692, 6), (0x2699, 1), (0x269B, 2),
    (0x26A0, 2), (0x26A7, 1), (0x26AA, 2), (0x26B0, 2), (0x26BD, 2), (0x26C4, 2), (0x26C8, 1),
    (0x26CE, 2), (0x26D1, 1), (0x26D3, 2), (0x26E9, 2), (0x26F0, 6), (0x26F7, 4), (0x26FD, 1),
    (0x2702, 1), (0x2705, 1), (0x2708, 6), (0x270F, 1), (0x2712, 1), (0x2714, 1), (0x2716, 1),
    (0x271D, 1), (0x2721, 1), (0x2728, 1), (0x2733, 2), (0x2744, 1), (0x2747, 1), (0x274C, 1),
    (0x274E, 1), (0x2753, 3), (0x2757, 1), (0x2763, 2), (0x2795, 3), (0x27A1, 1), (0x27B0, 1),
    (0x27BF, 1), (0x2934, 2), (0x2B05, 3), (0x2B1B, 2), (0x2B50, 1), (0x2B55, 1), (0x3030, 1),
    (0x303D, 1), (0x3297, 1), (0x3299, 1), (0x1F004, 1), (0x1F02C, 4), (0x1F094, 12), (0x1F0AF, 2),
    (0x1F0C0, 1), (0x1F0CF, 2), (0x1F0F6, 10), (0x1F170, 2), (0x1F17E, 2), (0x1F18E, 1),
    (0x1F191, 10), (0x1F1AE, 56), (0x1F201, 15), (0x1F21A, 1), (0x1F22F, 1), (0x1F232, 9),
    (0x1F23C, 4), (0x1F249, 23), (0x1F266, 188), (0x1F324, 112), (0x1F396, 2), (0x1F399, 3),
    (0x1F39E, 83), (0x1F3F3, 3), (0x1F3F7, 4), (0x1F400, 254), (0x1F4FF, 63), (0x1F549, 6),
    (0x1F550, 24), (0x1F56F, 2), (0x1F573, 8), (0x1F587, 1), (0x1F58A, 4), (0x1F590, 1),
    (0x1F595, 2), (0x1F5A4, 2), (0x1F5A8, 1), (0x1F5B1, 2), (0x1F5BC, 1), (0x1F5C2, 3),
    (0x1F5D1, 3), (0x1F5DC, 3), (0x1F5E1, 1), (0x1F5E3, 1), (0x1F5E8, 1), (0x1F5EF, 1),
    (0x1F5F3, 1), (0x1F5FA, 86), (0x1F680, 70), (0x1F6CB, 8), (0x1F6D5, 17), (0x1F6E9, 1),
    (0x1F6EB, 6), (0x1F6F3, 13), (0x1F7DA, 38), (0x1F80C, 4), (0x1F848, 8), (0x1F85A, 6),
    (0x1F888, 8), (0x1F8AE, 2), (0x1F8BC, 4), (0x1F8C2, 14), (0x1F8D9, 39), (0x1F90C, 47),
    (0x1F93C, 10), (0x1F947, 185), (0x1FA58, 8), (0x1FA6E, 146), (0x1FC00, 1022)]

/-- Consonants of scripts that write conjuncts. -/
def consonantRanges : Ranges :=
  [(0x915, 37), (0x958, 8), (0x978, 8), (0x995, 20), (0x9AA, 7), (0x9B2, 1), (0x9B6, 4), (0x9DC, 2),
    (0x9DF, 1), (0x9F0, 2), (0xA95, 20), (0xAAA, 7), (0xAB2, 2), (0xAB5, 5), (0xAF9, 1),
    (0xB15, 20), (0xB2A, 7), (0xB32, 2), (0xB35, 5), (0xB5C, 2), (0xB5F, 1), (0xB71, 1),
    (0xC15, 20), (0xC2A, 16), (0xC58, 3), (0xD15, 38), (0x1000, 43), (0x103F, 1), (0x1050, 6),
    (0x105A, 4), (0x1061, 1), (0x1065, 2), (0x106E, 3), (0x1075, 13), (0x108E, 1), (0x1780, 52),
    (0x1A20, 53), (0x1B0B, 2), (0x1B13, 33), (0x1B45, 8), (0x1B83, 30), (0x1BAE, 2), (0x1BBB, 3),
    (0xA989, 3), (0xA98F, 36), (0xA9E0, 5), (0xA9E7, 9), (0xA9FA, 5), (0xAA60, 16), (0xAA71, 3),
    (0xAA7A, 1), (0xAA7E, 2), (0xAAE0, 11), (0xABC0, 27), (0x10A00, 1), (0x10A10, 4), (0x10A15, 3),
    (0x10A19, 29), (0x11103, 36), (0x11144, 1), (0x11147, 1), (0x11380, 10), (0x1138B, 1),
    (0x1138E, 1), (0x11390, 38), (0x11900, 7), (0x11909, 1), (0x1190C, 8), (0x11915, 2),
    (0x11918, 24), (0x11A00, 1), (0x11A0B, 40), (0x11A50, 1), (0x11A5C, 40), (0x11F04, 13),
    (0x11F12, 34)]

/-- Marks that link two consonants to a conjunct. -/
def linkerRanges : Ranges :=
  [(0x94D, 1), (0x9CD, 1), (0xACD, 1), (0xB4D, 1), (0xC4D, 1), (0xD4D, 1), (0x1039, 1), (0x17D2, 1),
    (0x1A60, 1), (0x1B44, 1), (0x1BAB, 1), (0xA9C0, 1), (0xAAF6, 1), (0x10A3F, 1), (0x11133, 1),
    (0x113D0, 1), (0x1193E, 1), (0x11A47, 1), (0x11A99, 1), (0x11F42, 1)]

/-- Leading consonants of Hangul syllables. -/
def leadingRanges : Ranges :=
  [(0x1100, 96), (0xA960, 29)]

/-- Vowels of Hangul syllables, and others that combine in the same way. -/
def vowelRanges : Ranges :=
  [(0x1160, 72), (0xD7B0, 23), (0x16D63, 1), (0x16D67, 4)]

/-- Trailing consonants of Hangul syllables. -/
def trailingRanges : Ranges :=
  [(0x11A8, 88), (0xD7CB, 49)]

end ForthJit.Text.Grapheme
