import Mathlib

/-!
# The fixed-point logarithm

`crush_ln` computes 2 ^ 44 * log2 (u + 1) from two tables. Entry `2 * k` of the first is 2 ^ 48 / (1 + k / 128) and entry
`2 * k + 1` is 2 ^ 48 * log2 (1 + k / 128), both rounded; entry `k` of the second is 2 ^ 48 * log2 (1 + k / 2 ^ 15).

What the choice of an item needs is that the logarithm of a 16-bit number is at most 2 ^ 48 (`crushLn_le`). The input is
scaled to 2 ^ 15 <= x < 2 ^ 16 first. For each of the 128 values of its upper byte the index into the second table
grows with the lower byte, and at its largest the two entries add up to less than 2 ^ 48: this is checked on the tables,
at both ends of each range of lower bytes.
-/

namespace Lunule.Crush

def rhLhTbl : List Nat := [
  0x1000000000000, 0x000000000000, 0xfe03f80fe040, 0x02dfca16dde1, 0xfc0fc0fc0fc1, 0x05b9e5a170b4,
  0xfa232cf25214, 0x088e68ea899a, 0xf83e0f83e0f9, 0x0b5d69bac77e, 0xf6603d980f67, 0x0e26fd5c8555,
  0xf4898d5f85bc, 0x10eb389fa29f, 0xf2b9d6480f2c, 0x13aa2fdd27f1, 0xf0f0f0f0f0f1, 0x1663f6fac913,
  0xef2eb71fc435, 0x1918a16e4633, 0xed7303b5cc0f, 0x1bc84240adab, 0xebbdb2a5c162, 0x1e72ec117fa5,
  0xea0ea0ea0ea1, 0x2118b119b4f3, 0xe865ac7b7604, 0x23b9a32eaa56, 0xe6c2b4481cd9, 0x2655d3c4f15c,
  0xe525982af70d, 0x28ed53f307ee, 0xe38e38e38e39, 0x2b803473f7ad, 0xe1fc780e1fc8, 0x2e0e85a9de04,
  0xe070381c0e08, 0x309857a05e07, 0xdee95c4ca038, 0x331dba0efce1, 0xdd67c8a60dd7, 0x359ebc5b69d9,
  0xdbeb61eed19d, 0x381b6d9bb29b, 0xda740da740db, 0x3a93dc9864b2, 0xd901b2036407, 0x3d0817ce9cd4,
  0xd79435e50d7a, 0x3f782d7204d0, 0xd62b80d62b81, 0x41e42b6ec0c0, 0xd4c77b03531e, 0x444c1f6b4c2d,
  0xd3680d3680d4, 0x46b016ca47c1, 0xd20d20d20d21, 0x49101eac381c, 0xd0b69fcbd259, 0x4b6c43f1366a,
  0xcf6474a8819f, 0x4dc4933a9337, 0xce168a772509, 0x501918ec6c11, 0xcccccccccccd, 0x5269e12f346e,
  0xcb8727c065c4, 0x54b6f7f1325a, 0xca4587e6b750, 0x570068e7ef5a, 0xc907da4e8712, 0x59463f919dee,
  0xc7ce0c7ce0c8, 0x5b8887367433, 0xc6980c6980c7, 0x5dc74ae9fbec, 0xc565c87b5f9e, 0x6002958c5871,
  0xc4372f855d83, 0x623a71cb82c8, 0xc30c30c30c31, 0x646eea247c5c, 0xc1e4bbd595f7, 0x66a008e4788c,
  0xc0c0c0c0c0c1, 0x68cdd829fd81, 0xbfa02fe80bfb, 0x6af861e5fc7d, 0xbe82fa0be830, 0x6d1fafdce20a,
  0xbd6910470767, 0x6f43cba79e40, 0xbc52640bc527, 0x7164beb4a56d, 0xbb3ee721a54e, 0x73829248e961,
  0xba2e8ba2e8bb, 0x759d4f80cba8, 0xb92143fa36f6, 0x77b4ff5108d9, 0xb81702e05c0c, 0x79c9aa879d53,
  0xb70fbb5a19bf, 0x7bdb59cca388, 0xb60b60b60b61, 0x7dea15a32c1b, 0xb509e68a9b95, 0x7ff5e66a0ffe,
  0xb40b40b40b41, 0x81fed45cbccb, 0xb30f63528918, 0x8404e793fb81, 0xb21642c8590c, 0x86082806b1d5,
  0xb11fd3b80b12, 0x88089d8a9e47, 0xb02c0b02c0b1, 0x8a064fd50f2a, 0xaf3addc680b0, 0x8c01467b94bb,
  0xae4c415c9883, 0x8df988f4ae80, 0xad602b580ad7, 0x8fef1e987409, 0xac7691840ac8, 0x91e20ea1393e,
  0xab8f69e2835a, 0x93d2602c2e5f, 0xaaaaaaaaaaab, 0x95c01a39fbd6, 0xa9c84a47a080, 0x97ab43af59f9,
  0xa8e83f5717c1, 0x9993e355a4e5, 0xa80a80a80a81, 0x9b79ffdb6c8b, 0xa72f0539782a, 0x9d5d9fd5010b,
  0xa655c4392d7c, 0x9f3ec9bcfb80, 0xa57eb50295fb, 0xa11d83f4c355, 0xa4a9cf1d9684, 0xa2f9d4c51039,
  0xa3d70a3d70a4, 0xa4d3c25e68dc, 0xa3065e3fae7d, 0xa6ab52d99e76, 0xa237c32b16d0, 0xa8808c384547,
  0xa16b312ea8fd, 0xaa5374652a1c, 0xa0a0a0a0a0a1, 0xac241134c4e9, 0x9fd809fd80a0, 0xadf26865a8a1,
  0x9f1165e72549, 0xafbe7fa0f04d, 0x9e4cad23dd60, 0xb1885c7aa982, 0x9d89d89d89d9, 0xb35004723c46,
  0x9cc8e160c3fc, 0xb5157cf2d078, 0x9c09c09c09c1, 0xb6d8cb53b0ca, 0x9b4c6f9ef03b, 0xb899f4d8ab63,
  0x9a90e7d95bc7, 0xba58feb2703a, 0x99d722dabde6, 0xbc15edfeed32, 0x991f1a515886, 0xbdd0c7c9a817,
  0x9868c809868d, 0xbf89910c1678, 0x97b425ed097c, 0xc1404eadf383, 0x97012e025c05, 0xc2f5058593d9,
  0x964fda6c0965, 0xc4a7ba58377c, 0x95a02568095b, 0xc65871da59dd, 0x94f2094f2095, 0xc80730b00016,
  0x944580944581, 0xc9b3fb6d0559, 0x939a85c4093a, 0xcb5ed69565af, 0x92f113840498, 0xcd07c69d8702,
  0x924924924925, 0xceaecfea8085, 0x91a2b3c4d5e7, 0xd053f6d26089, 0x90fdbc090fdc, 0xd1f73f9c70c0,
  0x905a38633e07, 0xd398ae817906, 0x8fb823ee08fc, 0xd53847ac00a6, 0x8f1779d9fdc4, 0xd6d60f388e41,
  0x8e78356d1409, 0xd8720935e643, 0x8dda5202376a, 0xda0c39a54804, 0x8d3dcb08d3dd, 0xdba4a47aa996,
  0x8ca29c046515, 0xdd3b4d9cf24b, 0x8c08c08c08c1, 0xded038e633f3, 0x8b70344a139c, 0xe0636a23e2ee,
  0x8ad8f2fba939, 0xe1f4e5170d02, 0x8a42f870566a, 0xe384ad748f0e, 0x89ae4089ae41, 0xe512c6e54998,
  0x891ac73ae982, 0xe69f35065448, 0x888888888889, 0xe829fb693044, 0x87f78087f781, 0xe9b31d93f98e,
  0x8767ab5f34e5, 0xeb3a9f019750, 0x86d905447a35, 0xecc08321eb30, 0x864b8a7de6d2, 0xee44cd59ffab,
  0x85bf37612cef, 0xefc781043579, 0x853408534086, 0xf148a170700a, 0x84a9f9c8084b, 0xf2c831e44116,
  0x842108421085, 0xf446359b1353, 0x839930523fbf, 0xf5c2afc65447, 0x83126e978d50, 0xf73da38d9d4a,
  0x828cbfbeb9a1, 0xf8b7140edbb1, 0x820820820821, 0xfa2f045e7832, 0x81848da8faf1, 0xfba577877d7d,
  0x810204081021, 0xfd1a708bbe11, 0x808080808081, 0xfe8df263f957, 0x800000000000, 0xffff00000000]

def llTbl : List Nat := [
  0x000000000000, 0x0002e2a60a00, 0x00070cb64ec5, 0x0009ef50ce67, 0x000cd1e588fd, 0x000fb4747e9c,
  0x001296fdaf5e, 0x001579811b58, 0x00185bfec2a1, 0x001b3e76a552, 0x001e20e8c380, 0x002103551d43,
  0x0023e5bbb2b2, 0x0026c81c83e4, 0x0029aa7790f0, 0x002c8cccd9ed, 0x002f6f1c5ef2, 0x003251662017,
  0x003533aa1d71, 0x003815e8571a, 0x003af820cd26, 0x003dda537fae, 0x0040bc806ec8, 0x00439ea79a8c,
  0x004680c90310, 0x004962e4a86c, 0x004c44fa8ab6, 0x004f270aaa06, 0x005209150672, 0x0054eb19a013,
  0x0057cd1876fd, 0x005aaf118b4a, 0x005d9104dd0f, 0x006072f26c64, 0x006354da3960, 0x006636bc441a,
  0x006918988ca8, 0x006bfa6f1322, 0x006edc3fd79f, 0x0071be0ada35, 0x00749fd01afd, 0x0077818f9a0c,
  0x007a6349577a, 0x007d44fd535e, 0x008026ab8dce, 0x0083085406e3, 0x0085e9f6beb2, 0x0088cb93b552,
  0x008bad2aeadc, 0x008e8ebc5f65, 0x009170481305, 0x009451ce05d3, 0x0097334e37e5, 0x009a14c8a953,
  0x009cf63d5a33, 0x009fd7ac4a9d, 0x00a2b07f3458, 0x00a59a78ea6a, 0x00a87bd699fb, 0x00ab5d2e8970,
  0x00ae3e80b8e3, 0x00b11fcd2869, 0x00b40113d818, 0x00b6e254c80a, 0x00b9c38ff853, 0x00bca4c5690c,
  0x00bf85f51a4a, 0x00c2671f0c26, 0x00c548433eb6, 0x00c82961b211, 0x00cb0a7a664d, 0x00cdeb8d5b82,
  0x00d0cc9a91c8, 0x00d3ada20933, 0x00d68ea3c1dd, 0x00d96f9fbbdb, 0x00dc5095f744, 0x00df31867430,
  0x00e2127132b5, 0x00e4f35632ea, 0x00e7d43574e6, 0x00eab50ef8c1, 0x00ed95e2be90, 0x00f076b0c66c,
  0x00f35779106a, 0x00f6383b9ca2, 0x00f918f86b2a, 0x00fbf9af7c1a, 0x00feda60cf88, 0x0101bb0c658c,
  0x01049bb23e3c, 0x01077c5259af, 0x010a5cecb7fc, 0x010d3d81593a, 0x01101e103d7f, 0x0112fe9964e4,
  0x0115df1ccf7e, 0x0118bf9a7d64, 0x011ba0126ead, 0x011e8084a371, 0x012160f11bc6, 0x01244157d7c3,
  0x012721b8d77f, 0x012a02141b10, 0x012ce269a28e, 0x012fc2b96e0f, 0x0132a3037daa, 0x01358347d177,
  0x01386386698c, 0x013b43bf45ff, 0x013e23f266e9, 0x0141041fcc5e, 0x0143e4477678, 0x0146c469654b,
  0x0149a48598f0, 0x014c849c117c, 0x014f64accf08, 0x015244b7d1a9, 0x015524bd1976, 0x015804bca687,
  0x015ae4b678f2, 0x015dc4aa90ce, 0x0160a498ee31, 0x016384819134, 0x0166646479ec, 0x01694441a870,
  0x016c24191cd7, 0x016df6ca19bd, 0x0171e3b6d7aa, 0x0174c37d1e44, 0x0177a33dab1c, 0x017a82f87e49,
  0x017d62ad97e2, 0x0180425cf7fe, 0x0182b07f3458, 0x018601aa8c19, 0x0188e148c046, 0x018bc0e13b52,
  0x018ea073fd52, 0x01918001065d, 0x01945f88568b, 0x01973f09edf2, 0x019a1e85ccaa, 0x019cfdfbf2c8,
  0x019fdd6c6063, 0x01a2bcd71593, 0x01a59c3c126e, 0x01a87b9b570b, 0x01ab5af4e380, 0x01ae3a48b7e5,
  0x01b11996d450, 0x01b3f8df38d9, 0x01b6d821e595, 0x01b9b75eda9b, 0x01bc96961803, 0x01bf75c79de3,
  0x01c254f36c51, 0x01c534198365, 0x01c81339e336, 0x01caf2548bd9, 0x01cdd1697d67, 0x01d0b078b7f5,
  0x01d38f823b9a, 0x01d66e86086d, 0x01d94d841e86, 0x01dc2c7c7df9, 0x01df0b6f26df, 0x01e1ea5c194e,
  0x01e4c943555d, 0x01e7a824db23, 0x01ea8700aab5, 0x01ed65d6c42b, 0x01f044a7279d, 0x01f32371d51f,
  0x01f60236ccca, 0x01f8e0f60eb3, 0x01fbbfaf9af3, 0x01fe9e63719e, 0x02017d1192cc, 0x02045bb9fe94,
  0x02073a5cb50d, 0x0209c06e6212, 0x020cf791026a, 0x020fd622997c, 0x0212b07f3458, 0x02159334a8d8,
  0x021871b52150, 0x021b502fe517, 0x021d6a73a78f, 0x02210d144eee, 0x0223eb7df52c, 0x0226c9e1e713,
  0x0229a84024bb, 0x022c23679b4e, 0x022f64eb83a8, 0x02324338a51b, 0x0235218012a9, 0x0237ffc1cc69,
  0x023a2c3b0ea4, 0x023d13ee805b, 0x024035e9221f, 0x0243788faf25, 0x024656b4e735, 0x0247ed646bfe,
  0x024c12ee3d98, 0x024ef1025c1a, 0x0251cf10c799, 0x025492644d65, 0x02578b1c85ee, 0x025a6919d8f0,
  0x025d13ee805b, 0x026025036716, 0x026296453882, 0x0265e0d62b53, 0x0268beb701f3, 0x026b9c92265e,
  0x026d32f798a9, 0x0271583758eb, 0x02743601673b, 0x027713c5c3b0, 0x0279f1846e5f, 0x027ccf3d6761,
  0x027e6580aecb, 0x02828a9e44b3, 0x028568462932, 0x0287bdbf5255, 0x028b2384de4a, 0x028d13ee805b,
  0x029035e9221f, 0x029296453882, 0x029699bdfb61, 0x029902a37aab, 0x029c54b864c9, 0x029deabd1083,
  0x02a20f9c0bb5, 0x02a4c7605d61, 0x02a7bdbf5255, 0x02a96056dafc, 0x02ac3daf14ef, 0x02af1b019eca,
  0x02b296453882, 0x02b5d022d80f, 0x02b8fa471cb3, 0x02ba9012e713, 0x02bd6d4901cc, 0x02c04a796cf6,
  0x02c327a428a6, 0x02c61a5e8f4c, 0x02c8e1e891f6, 0x02cbbf023fc2, 0x02ce9c163e6e, 0x02d179248e13,
  0x02d4562d2ec6, 0x02d73330209d, 0x02da102d63b0, 0x02dced24f814]

/-- The index into the second table for a scaled input `x`, from the entry `rh` of the first. -/
def lnIndex2 (x rh : ℕ) : ℕ := (x * rh % 2 ^ 64) >>> 48 &&& 0xff

/-- The sum of the two logarithms looked up for a scaled input. -/
def lnMantissa (x : ℕ) : ℕ :=
  let index1 := (x >>> 8) <<< 1
  let rh := rhLhTbl.getD (index1 - 256) 0
  let lh := rhLhTbl.getD (index1 + 1 - 256) 0
  lh + llTbl.getD (lnIndex2 x rh) 0

def crushLn (xin : ℕ) : ℕ :=
  let x := xin + 1
  if x &&& 0x18000 = 0 then
    let bits := (BitVec.ofNat 32 (x &&& 0x1FFFF)).clz.toNat - 16
    ((15 - bits) <<< 44) + lnMantissa (x <<< bits) >>> 4
  else (15 <<< 44) + lnMantissa x >>> 4

private theorem llTbl_mono {i j : ℕ} (hij : i ≤ j) (hj : j < 256) : llTbl.getD i 0 ≤ llTbl.getD j 0 := by
  have hstep : ∀ i : Fin 255, llTbl.getD i 0 ≤ llTbl.getD (i + 1) 0 := by decide +kernel
  induction j, hij using Nat.le_induction with
  | base => exact le_rfl
  | succ j _ ih => exact (ih (by omega)).trans (hstep ⟨j, by omega⟩)

/-- For the upper byte `128 + k`, at the ends of the range of lower bytes: the product of input and reciprocal does not wrap and
is in the same multiple of 256, and at the upper end the entries add up to less than 2 ^ 48. -/
theorem lnTables_ends : ∀ k < 128, ((128 + k) * 256) * rhLhTbl.getD (2 * k) 0 / 2 ^ 48 / 256 = 128 ∧
      ((128 + k) * 256 + 255) * rhLhTbl.getD (2 * k) 0 / 2 ^ 48 / 256 = 128 ∧
      ((128 + k) * 256 + 255) * rhLhTbl.getD (2 * k) 0 < 2 ^ 64 ∧
      rhLhTbl.getD (2 * k + 1) 0 +
        llTbl.getD (((128 + k) * 256 + 255) * rhLhTbl.getD (2 * k) 0 / 2 ^ 48 % 256) 0 < 2 ^ 48 := by
  decide +kernel

private theorem lnIndex2_eq {x rh : ℕ} (h : x * rh < 2 ^ 64) : lnIndex2 x rh = x * rh / 2 ^ 48 % 256 := by
  unfold lnIndex2
  rw [Nat.mod_eq_of_lt h, Nat.shiftRight_eq_div_pow, show 0xff = 2 ^ 8 - 1 from rfl, Nat.and_two_pow_sub_one_eq_mod]

private theorem lnMantissa_lt {x : ℕ} (hlow : 2 ^ 15 ≤ x) (hhigh : x < 2 ^ 16) : lnMantissa x < 2 ^ 48 := by
  obtain ⟨k, f, hk, hf, rfl⟩ : ∃ k f, k < 128 ∧ f < 256 ∧ x = (128 + k) * 256 + f :=
    ⟨x / 256 - 128, x % 256, by omega, by omega, by omega⟩
  have hindex : (((128 + k) * 256 + f) >>> 8) <<< 1 = 256 + 2 * k := by
    rw [Nat.shiftRight_eq_div_pow, Nat.shiftLeft_eq]
    omega
  obtain ⟨hlo, hhi, -, hsum⟩ := lnTables_ends k hk
  simp only [lnMantissa, hindex, Nat.add_sub_cancel_left, add_assoc]
  generalize rhLhTbl.getD (2 * k) 0 = rh at *
  have hmul : ((128 + k) * 256 + f) * rh ≤ ((128 + k) * 256 + 255) * rh := Nat.mul_le_mul_right _ (by omega)
  have hmul' : ((128 + k) * 256) * rh ≤ ((128 + k) * 256 + f) * rh := Nat.mul_le_mul_right _ (by omega)
  rw [lnIndex2_eq (by omega)]
  -- between the ends the quotient stays in one multiple of 256, so its remainder grows too
  have hll := llTbl_mono
    (show ((128 + k) * 256 + f) * rh / 2 ^ 48 % 256 ≤ ((128 + k) * 256 + 255) * rh / 2 ^ 48 % 256 by omega)
    (Nat.mod_lt _ (by decide))
  omega

private theorem clz_of_lt {x : ℕ} (hpos : 0 < x) (hlt : x < 2 ^ 15) :
    ∃ bits, (BitVec.ofNat 32 x).clz.toNat - 16 = bits ∧ 1 ≤ bits ∧ bits ≤ 15 ∧ 2 ^ 15 ≤ x <<< bits ∧
      x <<< bits < 2 ^ 16 := by
  have hval : (BitVec.ofNat 32 x).toNat = x := by
    rw [BitVec.toNat_ofNat]
    exact Nat.mod_eq_of_lt (by omega)
  have hne : BitVec.ofNat 32 x ≠ 0#32 := by
    intro h
    rw [h] at hval
    simp at hval
    omega
  have hlow := BitVec.two_pow_sub_clz_le_toNat_of_ne_zero (by decide) hne
  have hhigh : (BitVec.ofNat 32 x).toNat < 2 ^ (32 - (BitVec.ofNat 32 x).clz.toNat) := BitVec.toNat_lt_two_pow_sub_clz
  have hclz : (BitVec.ofNat 32 x).clz.toNat < 32 := BitVec.lt_def.1 (BitVec.clz_lt_iff_ne_zero.2 hne)
  rw [hval] at hlow hhigh
  generalize (BitVec.ofNat 32 x).clz.toNat = z at *
  have hz : 17 ≤ z := by
    by_contra h
    have : 2 ^ 15 ≤ 2 ^ (32 - 1 - z) := Nat.pow_le_pow_right (by decide) (by omega)
    omega
  refine ⟨z - 16, rfl, by omega, by omega, ?_, ?_⟩
  · rw [Nat.shiftLeft_eq]
    calc 2 ^ 15 = 2 ^ (32 - 1 - z) * 2 ^ (z - 16) := by rw [← pow_add]; congr 1; omega
      _ ≤ x * 2 ^ (z - 16) := Nat.mul_le_mul_right _ hlow
  · rw [Nat.shiftLeft_eq]
    calc x * 2 ^ (z - 16) < 2 ^ (32 - z) * 2 ^ (z - 16) := mul_lt_mul_of_pos_right hhigh (Nat.two_pow_pos _)
      _ = 2 ^ 16 := by rw [← pow_add]; congr 1; omega

theorem crushLn_le {u : ℕ} (hu : u < 2 ^ 16) : crushLn u ≤ 2 ^ 48 := by
  rcases Nat.lt_or_ge (u + 1) (2 ^ 15) with hlt | hge
  · have hmask : (u + 1) &&& 0x18000 = 0 := by
      apply Nat.eq_of_testBit_eq
      intro i
      rw [Nat.testBit_and, Nat.zero_testBit]
      rcases lt_or_ge i 15 with hi | hi
      · have : ∀ i : Fin 15, Nat.testBit 0x18000 i = false := by decide
        simp [this ⟨i, hi⟩]
      · have : (u + 1).testBit i = false :=
          Nat.testBit_lt_two_pow (hlt.trans_le (Nat.pow_le_pow_right (by decide) hi))
        simp [this]
    have hlow : (u + 1) &&& 0x1FFFF = u + 1 := by
      rw [show 0x1FFFF = 2 ^ 17 - 1 from rfl, Nat.and_two_pow_sub_one_eq_mod]
      exact Nat.mod_eq_of_lt (by omega)
    obtain ⟨bits, hbits, -, -, hx1, hx2⟩ := clz_of_lt (by omega) hlt
    have hmant := lnMantissa_lt hx1 hx2
    unfold crushLn
    simp only [hmask, hlow, hbits, if_true]
    rw [Nat.shiftLeft_eq, Nat.shiftRight_eq_div_pow]
    omega
  · rcases lt_or_eq_of_le (show u + 1 ≤ 2 ^ 16 by omega) with hlt | heq
    · have hmant := lnMantissa_lt hge hlt
      have hbit : (u + 1).testBit 15 = true := by
        rw [Nat.testBit_eq_decide_div_mod_eq]
        simp only [decide_eq_true_eq]
        omega
      have hmask : (u + 1) &&& 0x18000 ≠ 0 := by
        intro h
        have h15 := congrArg (fun n => n.testBit 15) h
        simp only [Nat.testBit_and, hbit] at h15
        exact absurd h15 (by decide)
      unfold crushLn
      simp only [hmask, if_false]
      rw [Nat.shiftLeft_eq, Nat.shiftRight_eq_div_pow]
      omega
    · have : u = 2 ^ 16 - 1 := by omega
      subst this
      decide +kernel

end Lunule.Crush
