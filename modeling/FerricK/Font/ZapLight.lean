import FerricK.Font.Safety

namespace FerricK.Font

open Rust

/-- The bytes of `zap-light16.psf`, sixty-four to a number, lowest first. -/
def zapLight16 : List Nat := [
  0x00081020402010080000000000000040207f1008047f020100000000000000222424242424247e00000000000000003e777f77777b7d5d633e00000010020436,
  0x4a26120804121110301000000000000010387cfe7c38100000000000000000007e7e7e7e7e7e7e00000000000000003e0010080402040810000000000000007c,
  0x000000000000000000242400000008080808080000080808080800000002020f4a2612080472093008700000000f04024926100804121110301000000002020f,
  0x083e080808083e0808000000000000080808080808083e08080000000000700808080808083e0808080700003008080000000000000000000000000000000000,
  0x0008102010080000000000000000004949000000000000000000000000000000000000000051555bf10000000000008a55552a101048a4a44200000000000008,
  0x24000000000000000000000000000000000000000000004824242400000000000000000000000012242424000000000000100804081000000000000000000000,
  0x3a46424242463a00003c42000000003c4242424e404042423c003c42000810101000000000000000000000000012242424000000000000000000000000482424,
  0x42020c3040423c00000000003008083c4242020c304042423c0000000000003e0808080808081800000000000000003e08080808080808083e0008083c420202,
  0x24247e24247e2424240000000000000000000000000000242424240000000008080008080808080808000000000000000000000000000000000000003008083c,
  0x00000000000000100808080000000039464245281824242418000000000000462929160808344a4a310000000008083e4909093e4848493e0808000000000024,
  0x0808087f08080800000000000000000008492a1c2a49080000000000000020101008080808080810102000000000040808101010101010080804000000000000,
  0x20101008080404020200000000000008080000000000000000000000000000000000007e00000000000000000010080808000000000000000000000000000000,
  0x424202021c0242423c0000000000007e40201008040242423c0000000000003e0808080808082818080000000000003c424242524a4242423c00000000000020,
  0x10100808040402027e0000000000003c424242427c4040201c0000000000003c420202027c4040407e0000000000000404047e444424140c040000000000003c,
  0x08000000080800000000000000000008080000000808000000000000000000380402023e424242423c0000000000003c424242423c4242423c00000000000010,
  0x08000808040242423c0000000000002010080402040810200000000000000000007e0000007e0000000000000000000408102040201008040000000000100808,
  0x42424040404042423c0000000000007c424242427c4242427c000000000000424242427e42422424180000000000001e204e525252564a221c00000000000008,
  0x4242424e404042423c00000000000040404040407c4040407e0000000000007e404040407c4040407e000000000000784442424242424244780000000000003c,
  0x4448506060504844420000000000003844440404040404041f0000000000003e08080808080808083e00000000000042424242427e424242420000000000003c,
  0x42424242424242423c0000000000004246464a4a5252626242000000000000414141494955556363410000000000007e40404040404040404000000000000042,
  0x4242020c304042423c00000000000042424444487c4242427c0000000000033c665a4242424242423c000000000000404040407c424242427c0000000000003c,
  0x636355554949414141000000000000080814142222224141410000000000003c4242424242424242420000000000000808080808080808087f0000000000003c,
  0x1010101010101010101c00000000007e40402010080402027e000000000000080808080814222241410000000000004242242418182424424200000000000041,
  0x00000000000000000000000000000000000000000000004122140800000038080808080808080808083800000000000202040408081010202000000000001c10,
  0x4240404040423c00000000000000005c6242424242625c40404000000000003a4642423e02423c00000000000000000000000000000000081010100000007f00,
  0x3a46424242463a00000000000000001010101010107c1010100e00000000003c4240407e42423c00000000000000003a4642424242463a02020200000000003c,
  0x444850605048444040400000384404040404040404040c00040400000000003e080808080808180008080000000000424242424242625c40404000003c420202,
  0x4242424242423c0000000000000000424242424242625c0000000000000000494949494949497600000000000000003e08080808080808080818000000000042,
  0x42020c3040423c0000000000000000404040404040625c00000000000202023a4642424242463a00000000004040405c6242424242625c00000000000000003c,
  0x494949494941410000000000000000081414222241414100000000000000003a4642424242424200000000000000000e10101010107c1010101000000000003c,
  0x0808080830080808080600000000007e4020100804027e00000000003c4202023a46424242424200000000000000004242241818244242000000000000000036,
  0x0000183c3c1800000000000000000000000000000000000046493100000030080808080806080808083000000000080808080808080808080808000000000608,
  0x4242427e4242242418004c32000000424242427e4242242418002418000000424242427e424224241800300c000000424242427e4242242418000c3000000000,
  0x42424040404042423c0000000000004f484848487e4848281f000000000000424242427e4242242418242418000000424242427e424224241800242400000042,
  0x404040407c4040407e0024240000007e404040407c4040407e0024180000007e404040407c4040407e00300c0000007e404040407c4040407e000c303008083c,
  0x08080808080808083e0022220000003e08080808080808083e0024180000003e08080808080808083e0018060000003e08080808080808083e000c300000007e,
  0x42424242424242423c00300c0000003c42424242424242423c000c300000004246464a4a5252626242004c320000007844424242f2424244780000000000003e,
  0x0022140814220000000000000000003c42424242424242423c0024240000003c42424242424242423c004c320000003c42424242424242423c0024180000003c,
  0x4242424242424242420024180000003c42424242424242424200300c0000003c424242424242424242000c300000405c226252524a4a46443a02000000000000,
  0x5242424c50504c443800000000000040407c424242427c4040000000000000080808080814222241410018060000003c4242424242424242420024240000003c,
  0x22202020782020201c0000000008083e4948484848493e08080000000000000808080808080800080800000055aa55aa55aa55aa55aa55aa55aa55aa0000004c,
  0x020c122222241820221c00000000003c4242020c304042423c00182400000008083e083e08142241410000000000000e11207c207e20110e000000000000007e,
  0x001224482412000000000000000000000000007c003c443c043800000000003c4299a5a1a1a599423c0000000000003c42020c3040423c000018240000001c22,
  0x000000000000000000003c000000003c42a5a9b9a5a5b9423c00000000000000221c2222221c220000000000000000000202027e000000000000000000000000,
  0x000000384404380444380000000000000000007c4020180444380000000000007f000808087f0808080000000000000000000000000018242418000000000000,
  0x0000000808000000000000000000000a0a0a0a3a7a7a7a7a3e0000004040405a6642424242424200000000000000007e40402010080402027e00182400000000,
  0x004824122448000000000000000000000000007c0038444444380000000000000000007c10101050301000000000007e4020100804027e000018240000000000,
  0x42424020101000101000000000000008080808081422224141002222000000364948484f494936000000000000000037484848484e4848483700000000000000,
  0x080808f80000000000000000080808080808080f00000000000000000808080808080808080808080808080800000000000000ff00000000000000000000003c,
  0x080808f80808080808080808080808080808080f080808080808080800000000000000f80808080808080808000000000000000f080808080808080808080808,
  0x22882288228822882288228808080808080808ff080808080808080800000000000000ff080808080808080808080808080808ff000000000000000008080808,
  0x000000000000000000000000000000ff000000000000000000000000000000000000000000000000ff000000000000000000000000000000000000ff22882288,
  0x1414f404fc0000000000000014141414141417101f0000000000000014141414141414141414141414141414000000000000ff00ff00000000000000ff000000,
  0x1414f404f41414141414141414141414141417101714141414141414000000000000fc04f4141414141414140000000000001f10171414141414141414141414,
  0xffffffffffffffffffffffff141414141414f700f714141414141414000000000000ff00f714141414141414141414141414f700ff0000000000000014141414,
  0x000804fe0408000000000000000000000010207f201000000000000000000000081c2a08080808000000000000000000080808082a1c080000000000ffffffff,
  0x4642423e02423c00004c32000000003a4642423e02423c00002418000000003a4642423e02423c0000300c000000003a4642423e02423c00000c300000000000,
  0x4240404040423c0000000000000000364948483f09493600000000000000003a4642423e02423c00182424180000003a4642423e02423c00002424000000003a,
  0x4240407e42423c00002424000000003c4240407e42423c00002418000000003c4240407e42423c0000300c000000003c4240407e42423c00000c30003008083c,
  0x0808080808081800002424000000003e0808080808081800002418000000003e080808080808180000300c000000003e0808080808081800000c30000000003c,
  0x4242424242423c0000300c000000003c4242424242423c00000c3000000000424242424242625c00004c32000000003c42424242463a0264186600000000003e,
  0x1000007c00001010000000000000003c4242424242423c00002424000000003c4242424242423c00004c32000000003c4242424242423c00002418000000003c,
  0x4642424242424200002418000000003a464242424242420000300c000000003a4642424242424200000c30000000403c6252524a4a463c020000000000000010,
  0x3a46424242424200002424004040405c6242424242625c40404000003c4202023a4642424242420000300c000000003a4642424242424200002424000000003a,
  0x00a6ffff00beffff00bdffff00bcffff2b272b25266625c6ffff220e2b1b25fe25fc25ae25ac25a0ffff2265ffff2264ffff2260ffff03c0fffffffd3c420202,
  0x201effff203302ee02dd02ba201dffff2036201f201cffff203affff2039ffff2026ffff2122ffff2030ffff2021ffff2020ffff0192ffff00b8ffff00a8ffff,
  0x202f200a200920082007200620052004200320022001200000a00020ffff015fffff015effff0131ffff0130ffff011fffff011effff02ce2e41ffff2e42ffff,
  0xffff002bffff2217204e002affff0029ffff0028ffff2032201902ca02bc02b900b40027ffff0026ffff0025ffff0024ffff0023ffff0022ffff0021ffff205f,
  0xffff0035ffff0034ffff0033ffff0032ffff0031ffff0030ffff22152044002fffff2024002effff22122043201320122011201000ad002dffff201a02cf002c,
  0xffff0044ffff0043ffff0042ffff0041ffff0040ffff003fffff003effff2e40003dffff003cffff003bffff2236003affff0039ffff0038ffff0037ffff0036,
  0x0054ffff0053ffff0052ffff0051ffff0050ffff004fffff004effff004dffff004cffff212a004bffff004affff0049ffff0048ffff0047ffff0046ffff0045,
  0x201802cb02bd02bb0060ffff005fffff230302c602c4005effff005dffff29f5005cffff005bffff005affff0059ffff0058ffff0057ffff0056ffff0055ffff,
  0x006fffff006effff006dffff006cffff006bffff006affff0069ffff0068ffff0067ffff0066ffff0065ffff0064ffff0063ffff0062ffff0061ffff2035201b,
  0x02dc007effff007dffff2223007cffff007bffff007affff0079ffff0078ffff0077ffff0076ffff0075ffff0074ffff0073ffff0072ffff0071ffff0070ffff,
  0xffff00ccffff00cbffff00caffff00c9ffff00c8ffff00c7ffff00c6ffff212b00c5ffff00c4ffff00c3ffff00c2ffff00c1ffff00c0ffff25cf22192022ffff,
  0x00dcffff00dbffff00daffff00d9ffff00d8ffff00d7ffff00d6ffff00d5ffff00d4ffff00d3ffff00d2ffff00d1ffff011000d0ffff00cfffff00ceffff00cd,
  0x00acffff00abffff00aaffff00a9ffff0161ffff00a7ffff0160ffff00a5ffff20acffff00a3ffff00a2ffff00a1ffff2592ffff00dfffff00deffff00ddffff,
  0x00b9ffff017effff2e3122c5202700b7ffff00b6ffff03bc00b5ffff017dffff00b3ffff00b2ffff00b1ffff02da00b0ffff02c900afffff00aeffff00a4ffff,
  0xffff256f2518ffff25702514ffff256e2510ffff256d250cffff2502ffff23af201520142500ffff00bfffff0178ffff0153ffff0152ffff00bbffff00baffff,
  0x25132557ffff250f2554ffff25032551ffff25012550ffff23bdffff23bcffff23bbffff203e23baffff2591ffff253cffff2534ffff252cffff2524ffff251c,
  0xffff2192ffff2190ffff2193ffff2191ffff2588ffff254b256cffff253b2569ffff25332566ffff252b2563ffff25232560ffff251b255dffff2517255affff,
  0xffff00efffff00eeffff00edffff00ecffff00ebffff00eaffff00e9ffff00e8ffff00e7ffff00e6ffff00e5ffff00e4ffff00e3ffff00e2ffff00e1ffff00e0,
  0xffff00ffffff00feffff00fdffff00fcffff00fbffff00faffff00f9ffff00f8ffff00f7ffff00f6ffff00f5ffff00f4ffff00f3ffff00f2ffff00f1ffff00f0]

def fontData : Slice where
  bytes := zapLight16.flatMap (Bytes.toLE 64)
  length_lt := by simp [zapLight16]

theorem length_fontData : fontData.bytes.length = 5312 := by
  simp [fontData, zapLight16]

theorem fontData_header : ∃ rest, fontData.bytes = 0x36 :: 0x04 :: 0x02 :: 0x10 :: rest :=
  ⟨_, rfl⟩

/-- What the console relies on: one font, eight by sixteen, that any pixel of can be asked for. -/
structure Small (f : Font) : Prop where
  width : f.width = 8
  height : f.height = 16
  laid : Laid f
  safe : Safe f

theorem parse_fontData : ∃ f, parse fontData = .ok (.ok f) ∧ Small f := by
  obtain ⟨rest, hbytes⟩ := fontData_header
  have hlen := length_fontData
  have hmagic : word fontData.bytes 0 2 = psf1Magic := by rw [hbytes]; rfl
  have hmode : fontData.bytes[2]? = some 2 := by rw [hbytes]; rfl
  have hsize : fontData.bytes[3]? = some 16 := by rw [hbytes]; rfl
  have hend : (psf1Font fontData 2 16).unicodeOffset = 4100 := rfl
  have hfont : parsePsf1 fontData = .ok (.ok (psf1Font fontData 2 16)) := by
    rw [parsePsf1_eq hmode hsize, if_neg (by omega)]
  have hparse := parse_eq_parsePsf1 (by omega) hmagic
  obtain ⟨-, hlaid, -, hwidth, -, hheight, -⟩ := parsePsf1_cases hfont
  have hsixteen : word fontData.bytes 3 1 = 16 := by rw [hbytes]; rfl
  have hsafe := (parsePsf1_safe_iff hfont).mpr (by omega)
  exact ⟨_, hparse.trans hfont, hwidth, hheight.trans hsixteen, hlaid, hsafe⟩

variable {f : Font}

theorem Small.glyphPixel_ok (h : Small f) (i : Nat) (hx : x < 2 ^ 32) (hy : y < 2 ^ 32) :
    ∃ r, f.glyphPixel i x y = .ok r := by
  by_cases hi : i < 2 ^ 32
  · exact (h.safe.pixel i hi x hx y hy).imp fun _ => And.left
  · have hcount := h.laid.count_lt
    exact ⟨none, by rw [glyphPixel, if_pos (by omega), pure_eq_ok]⟩

end FerricK.Font
