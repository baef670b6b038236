/-
Precomputed constants of the field with `2^128` elements: the decomposition of
the subfield basis, and the table of the normalized subspace polynomials.
-/
import Longfellow.Fields.Field2128.Arithmetic
import Longfellow.Lib.AdditiveFft
import Longfellow.Lib.Exec

namespace Longfellow.Field2_128

open Exec AdditiveFft

/-- The lower-upper decomposition of the subfield basis. -/
structure SubfieldBasisLowerUpperDecomposition where
  upper : List (BitVec 128)
  lowerInverse : List UInt16
  firstNonzero : List Nat

/-- The decomposition that projects elements into the subfield. -/
def subfieldBasisLuDecomposition : SubfieldBasisLowerUpperDecomposition where
  upper :=
    [ 0x00000000000000000000000000000001,
      0xa76c2e634c6483ae9ba3282087a3f826,
      0xb61e08da12f9665c3f8de8a2f9ff7eec,
      0x8bb99658eaf2cae0a6e310fb6e176ea8,
      0x7841f7cf03b0d5a3caef76488b2bfe10,
      0xea47795d67f8b2e4ce0af6a34fb0a4a0,
      0xd3276f5fb2185410e7ab29852dd0b0c0,
      0x35c703f8f8a328dcb89fb94052975180,
      0xdb99d2938de757eb6c51c5088af37700,
      0x2d290b30633d2d307afe9d9a57c89e00,
      0x3cc29927824eeb2034eb7f993103ac00,
      0x6ceac7ebd34f72d21117d60b97f1a800,
      0x4c615cf89cffda2ed4c87cff359bf000,
      0xeb69b5f522aa1349f13bf9c28a14c000,
      0xd2fe31fc44ec6af4083bc45ecfdf8000,
      0xea0d8c4e795ffb66e4c8d38dc4db0000 ]
  lowerInverse :=
    [ 0x0001, 0x0011, 0x0009, 0x0004,
      0x0035, 0x000b, 0x009c, 0x004f,
      0x02eb, 0x0688, 0x01a9, 0x08e3,
      0x1710, 0x2cf1, 0xb2c7, 0x6e5e ]
  firstNonzero := [0, 1, 2, 3, 4, 5, 6, 7, 8, 9, 10, 11, 12, 14, 15, 16]

/-- The normalized subspace polynomials at the elements of the basis: element
`[i][j]` is the `i`-th one at the `j`-th element. -/
def twiddleArray : List (List Field2_128) :=
  [ [ ⟨1⟩,
      ⟨122753392676920971658749122761936853580⟩,
      ⟨185726315739164108859399796142663757480⟩,
      ⟨242075443675499227109267320400911498989⟩,
      ⟨222542784214874944227167260511584909351⟩,
      ⟨112425233274138136655968706803108112542⟩,
      ⟨111955919296675432803292387102199683976⟩,
      ⟨98263563783606923211003062286538201250⟩,
      ⟨201564998845547644025367330818532893392⟩,
      ⟨160337305018218142404182087593505552404⟩,
      ⟨226322062164902409880343938983895220315⟩,
      ⟨162097237762330204766181745825071946233⟩,
      ⟨231881152083561309652087018093156258488⟩,
      ⟨285712114744156533702206238221900352048⟩,
      ⟨7298129229485713500594372746195714592⟩,
      ⟨33006046103584326006971076539670943571⟩ ],
    [ ⟨0⟩,
      ⟨1⟩,
      ⟨286951796544069427116289924355363222756⟩,
      ⟨205758735199428137656536022487254427746⟩,
      ⟨23757469676399553940038052538735621596⟩,
      ⟨161549623495630183708663389875042496835⟩,
      ⟨16275930523155067441630209938366198059⟩,
      ⟨190300499423516401406868752291218395892⟩,
      ⟨11448054044492245544708082350784790892⟩,
      ⟨28148182364517770471961017904963996257⟩,
      ⟨154977613376610097022172464622995110854⟩,
      ⟨76510322097641330670743902342087859838⟩,
      ⟨238362568792294389666080992445392941271⟩,
      ⟨173217726505858477928634410586126651478⟩,
      ⟨81545844897013238588158283858154956233⟩,
      ⟨189175746861513884278977899876925272681⟩ ],
    [ ⟨0⟩,
      ⟨0⟩,
      ⟨1⟩,
      ⟨149604548812814971135929617817875991747⟩,
      ⟨18287642172741067191237245240449235364⟩,
      ⟨307091996710368962282810895442127142609⟩,
      ⟨201835466705828260825510313465461159048⟩,
      ⟨194258834002682884674953542971235556380⟩,
      ⟨248981368054472319760436396505833520019⟩,
      ⟨178136518006013047973130452485618317015⟩,
      ⟨313676359486875526854146978029369761794⟩,
      ⟨92353577814579651570056745768523583833⟩,
      ⟨195670921082380475412214841834596521965⟩,
      ⟨134351024333749293707731262765274912041⟩,
      ⟨74870318249022658301033765250020402553⟩,
      ⟨32567027570433742491675553581848801066⟩ ],
    [ ⟨0⟩,
      ⟨0⟩,
      ⟨0⟩,
      ⟨1⟩,
      ⟨307263416323549896857530870633261674003⟩,
      ⟨82261261761985330095318507405292410799⟩,
      ⟨338608655987419545865071306860662489358⟩,
      ⟨302330271307028456681319155803179903359⟩,
      ⟨195892472845583133581572054558965677184⟩,
      ⟨236934410982817785485347228471245885754⟩,
      ⟨312356217329746682073303095870834666114⟩,
      ⟨269194236549396743112079843039137721637⟩,
      ⟨22576919569049008877775826437195400979⟩,
      ⟨113634793632070596656432600399929337856⟩,
      ⟨117803143902495298852781605950600491320⟩,
      ⟨190038277193786052885877982693364496125⟩ ],
    [ ⟨0⟩,
      ⟨0⟩,
      ⟨0⟩,
      ⟨0⟩,
      ⟨1⟩,
      ⟨228135735640806269028499007403483376367⟩,
      ⟨274212946793736732184887430496366720169⟩,
      ⟨178264668457174907519505051147403859531⟩,
      ⟨306080296125733219811682242544493294523⟩,
      ⟨327773836761295472749990895064997074991⟩,
      ⟨198128310469225103564532344069124399⟩,
      ⟨65176661250063127310677367247900067852⟩,
      ⟨242342804780088945017155417130892677514⟩,
      ⟨138772011260490117816252961574289306816⟩,
      ⟨205253056393609005522875972501154885983⟩,
      ⟨317726287660162658821387861477302583473⟩ ],
    [ ⟨0⟩,
      ⟨0⟩,
      ⟨0⟩,
      ⟨0⟩,
      ⟨0⟩,
      ⟨1⟩,
      ⟨217250839138421353436318368084321759680⟩,
      ⟨317754180356169049724161533948814551100⟩,
      ⟨16927176668965923175402717746039624447⟩,
      ⟨258776387831806339857021365896849098817⟩,
      ⟨17666080074338456966664106913120137980⟩,
      ⟨60009081516200663335631386860132791339⟩,
      ⟨102991965940264533127899026339393950588⟩,
      ⟨112331229927218020056263576011034372590⟩,
      ⟨184500073728661779510508730900433841535⟩,
      ⟨211218446533310416807092936054851981786⟩ ],
    [ ⟨0⟩,
      ⟨0⟩,
      ⟨0⟩,
      ⟨0⟩,
      ⟨0⟩,
      ⟨0⟩,
      ⟨1⟩,
      ⟨173925311393179455246569828224129260302⟩,
      ⟨296308313587701766766948086293600070191⟩,
      ⟨33332068644302616674122975055691889483⟩,
      ⟨155900095362269519779319759163748677093⟩,
      ⟨43587746736855930083301997797325514856⟩,
      ⟨296423362206237654114472540790749486996⟩,
      ⟨114177498896775655524413766364624920718⟩,
      ⟨55022947539972640258572133274184718364⟩,
      ⟨113051992297966524881852629333968671858⟩ ],
    [ ⟨0⟩,
      ⟨0⟩,
      ⟨0⟩,
      ⟨0⟩,
      ⟨0⟩,
      ⟨0⟩,
      ⟨0⟩,
      ⟨1⟩,
      ⟨297062813223354907329411156269979989384⟩,
      ⟨55498875102507815491353012386755245730⟩,
      ⟨97183195234143136341179557816284787233⟩,
      ⟨270403797531338209745567427038712884667⟩,
      ⟨123713051752486943980447104415706581647⟩,
      ⟨133020482301726714061969471043085869386⟩,
      ⟨129084436268751443109719694773436356216⟩,
      ⟨300999069130577813329649794063126094168⟩ ],
    [ ⟨0⟩,
      ⟨0⟩,
      ⟨0⟩,
      ⟨0⟩,
      ⟨0⟩,
      ⟨0⟩,
      ⟨0⟩,
      ⟨0⟩,
      ⟨1⟩,
      ⟨1645703777016437714629157206641955411⟩,
      ⟨231496577504192395792668042882768762319⟩,
      ⟨317726287660162658821387861477302583473⟩,
      ⟨27694789911334405391595093561069647213⟩,
      ⟨22687114254299160926038189888566784014⟩,
      ⟨58546241224996357010262736068369977482⟩,
      ⟨264487024855738888491702452631261417506⟩ ],
    [ ⟨0⟩,
      ⟨0⟩,
      ⟨0⟩,
      ⟨0⟩,
      ⟨0⟩,
      ⟨0⟩,
      ⟨0⟩,
      ⟨0⟩,
      ⟨0⟩,
      ⟨1⟩,
      ⟨38037535346261701501342686448200276617⟩,
      ⟨54221509729363911693681432243308123656⟩,
      ⟨301991129608627453072761912641719839795⟩,
      ⟨70357236220939224698835302321949477827⟩,
      ⟨339250576658533255637023616542837909595⟩,
      ⟨47859474030351277790005742802004690535⟩ ],
    [ ⟨0⟩,
      ⟨0⟩,
      ⟨0⟩,
      ⟨0⟩,
      ⟨0⟩,
      ⟨0⟩,
      ⟨0⟩,
      ⟨0⟩,
      ⟨0⟩,
      ⟨0⟩,
      ⟨1⟩,
      ⟨217480865654509432899360809558247575290⟩,
      ⟨189903756104397162778830291913051146195⟩,
      ⟨222867999970256714018398050712535064668⟩,
      ⟨139517438828506211642716080863358198247⟩,
      ⟨285320343925353838224981329933203993161⟩ ],
    [ ⟨0⟩,
      ⟨0⟩,
      ⟨0⟩,
      ⟨0⟩,
      ⟨0⟩,
      ⟨0⟩,
      ⟨0⟩,
      ⟨0⟩,
      ⟨0⟩,
      ⟨0⟩,
      ⟨0⟩,
      ⟨1⟩,
      ⟨258795108754019427095027841722093167037⟩,
      ⟨98205778530760675500084609155277246157⟩,
      ⟨205350314264990556018588615100340325482⟩,
      ⟨91685833721197891782118719076912795535⟩ ],
    [ ⟨0⟩,
      ⟨0⟩,
      ⟨0⟩,
      ⟨0⟩,
      ⟨0⟩,
      ⟨0⟩,
      ⟨0⟩,
      ⟨0⟩,
      ⟨0⟩,
      ⟨0⟩,
      ⟨0⟩,
      ⟨0⟩,
      ⟨1⟩,
      ⟨337885671867720762115972294340238537909⟩,
      ⟨133312971165295752178238705787144490844⟩,
      ⟨79865913147303941867309655175065324520⟩ ],
    [ ⟨0⟩,
      ⟨0⟩,
      ⟨0⟩,
      ⟨0⟩,
      ⟨0⟩,
      ⟨0⟩,
      ⟨0⟩,
      ⟨0⟩,
      ⟨0⟩,
      ⟨0⟩,
      ⟨0⟩,
      ⟨0⟩,
      ⟨0⟩,
      ⟨1⟩,
      ⟨34075701874363500988951311760257950112⟩,
      ⟨60671999173760487464442662968386560731⟩ ],
    [ ⟨0⟩,
      ⟨0⟩,
      ⟨0⟩,
      ⟨0⟩,
      ⟨0⟩,
      ⟨0⟩,
      ⟨0⟩,
      ⟨0⟩,
      ⟨0⟩,
      ⟨0⟩,
      ⟨0⟩,
      ⟨0⟩,
      ⟨0⟩,
      ⟨0⟩,
      ⟨1⟩,
      ⟨333868580667653917453718037019227144272⟩ ],
    [ ⟨0⟩,
      ⟨0⟩,
      ⟨0⟩,
      ⟨0⟩,
      ⟨0⟩,
      ⟨0⟩,
      ⟨0⟩,
      ⟨0⟩,
      ⟨0⟩,
      ⟨0⟩,
      ⟨0⟩,
      ⟨0⟩,
      ⟨0⟩,
      ⟨0⟩,
      ⟨0⟩,
      ⟨1⟩ ] ]

/-- Element `[x][y]` of the table. -/
def twiddleArrayAt (x y : Nat) : Exec Field2_128 := do
  let row ← index twiddleArray x
  index row y

/-- The elements of the basis, and zeros after them. -/
def basisAt (k : Nat) : Field2_128 := subfieldBasis.getD k 0

/-- The elements of the table, and zeros outside of it. -/
def tableAt (i k : Nat) : Field2_128 := (twiddleArray.getD i []).getD k 0

theorem length_subfieldBasis : subfieldBasis.length = 16 := rfl

theorem twiddleArrayAt_eq_ok {x y : Nat} (hx : x < 16) (hy : y < 16) :
    twiddleArrayAt x y = .ok (tableAt x y) := by
  have hlength : ∀ row ∈ twiddleArray, row.length = 16 := by decide
  have hx' : x < twiddleArray.length := hx
  have hy' : y < twiddleArray[x].length := by
    rw [hlength _ (List.getElem_mem hx')]
    exact hy
  rw [twiddleArrayAt, index_of_lt hx', ok_bind, index_of_lt hy', tableAt]
  simp only [List.getD_eq_getElem?_getD, List.getElem?_eq_getElem hx',
    Option.getD_some, List.getElem?_eq_getElem hy']

section Table

theorem basisAt_zero : basisAt 0 = 1 := rfl

theorem tableAt_zero : ∀ k, k < 16 → tableAt 0 k = basisAt k := by decide

theorem mul_add_one (x : Field2_128) : x * (x + 1) = x.square + x := by
  rw [square_eq]
  ring

theorem tableAt_ne_zero : ∀ i, i + 1 < 16 →
    tableAt i (i + 1) * (tableAt i (i + 1) + 1) ≠ 0 := by
  have h : ∀ i, i < 15 →
      (tableAt i (i + 1)).square + tableAt i (i + 1) ≠ 0 := by
    decide +kernel
  intro i hi
  rw [mul_add_one]
  exact h i (by omega)

/-- Each row is computed from the one before it. -/
theorem tableAt_succ : ∀ i, i + 1 < 16 → ∀ k, k < 16 →
    tableAt (i + 1) k * (tableAt i (i + 1) * (tableAt i (i + 1) + 1)) =
      tableAt i k * (tableAt i k + 1) := by
  have hlow : ∀ i, i < 15 → ∀ k, k ≤ i →
      tableAt (i + 1) k = 0 ∧ (tableAt i k).square + tableAt i k = 0 := by
    decide +kernel
  have hhigh : ∀ i, i < 15 → ∀ k, k < 16 → i < k →
      tableAt (i + 1) k *
          ((tableAt i (i + 1)).square + tableAt i (i + 1)) =
        (tableAt i k).square + tableAt i k := by
    decide +kernel
  intro i hi k hk
  rw [mul_add_one, mul_add_one]
  by_cases hki : k ≤ i
  · obtain ⟨hzero, hsame⟩ := hlow i (by omega) k hki
    rw [hzero, hsame, zero_mul]
  · exact hhigh i (by omega) k hk (by omega)

/-- The elements of the basis are independent. -/
theorem independent_basisAt : Independent basisAt 16 := by
  intro i hi
  exact (eval_normalized_eq_table basisAt_zero tableAt_zero tableAt_ne_zero
    tableAt_succ hi).1

/-- The table has the values of the normalized subspace polynomials of the
basis. -/
theorem eval_normalized_basisAt {i k : Nat} (hi : i < 16) (hk : k < 16) :
    (normalized basisAt i).eval (basisAt k) = tableAt i k :=
  (eval_normalized_eq_table basisAt_zero tableAt_zero tableAt_ne_zero
    tableAt_succ hi).2 k hk

end Table

section Inject

theorem low_bit (value : UInt16) : value &&& 1 = 1 ↔ value.toNat % 2 = 1 := by
  rw [← UInt16.toNat_inj, UInt16.toNat_and]
  exact (Nat.and_one_is_mod value.toNat) ▸ Iff.rfl

theorem foldl_inject (basis : List Field2_128) (injected : Field2_128)
    (value : UInt16) :
    (basis.foldl
      (fun (injected, value) basisElement =>
        (injected + (if value &&& 1 = 1 then basisElement else 0),
          value >>> 1))
      (injected, value)).1 =
      injected + ∑ k ∈ Finset.range basis.length,
        if value.toNat.testBit k then basis.getD k 0 else 0 := by
  induction basis generalizing injected value with
  | nil => simp
  | cons b basis ih =>
      have hhalf : (value >>> 1).toNat = value.toNat / 2 := by
        rw [UInt16.toNat_shiftRight]
        exact Nat.shiftRight_eq_div_pow value.toNat 1
      rw [List.foldl_cons, ih, List.length_cons, Finset.sum_range_succ',
        add_assoc, add_comm (Finset.sum _ _), hhalf]
      simp only [low_bit, Nat.testBit_succ, Nat.testBit_zero,
        List.getD_cons_succ, List.getD_cons_zero, decide_eq_true_eq]

/-- Injecting a value is taking the sum of the basis over its bits. -/
theorem inject_eq_bitSum (value : UInt16) :
    inject value = bitSum basisAt value.toNat := by
  rw [bitSum_eq basisAt value.toNat_lt, inject, injectBits,
    List.take_of_length_le length_subfieldBasis.le, foldl_inject, zero_add]
  rfl

theorem inject_zero : inject 0 = 0 := by
  rw [inject_eq_bitSum]
  rfl

theorem inject_xor (v w : UInt16) :
    inject (v ^^^ w) = inject v + inject w := by
  rw [inject_eq_bitSum, inject_eq_bitSum, inject_eq_bitSum, UInt16.toNat_xor]
  exact bitSum_xor CharTwo.add_self_eq_zero basisAt _ _

theorem inject_injective : Function.Injective inject := by
  intro v w h
  rw [inject_eq_bitSum, inject_eq_bitSum] at h
  exact UInt16.toNat_inj.mp
    (bitSum_injOn independent_basisAt v.toNat_lt w.toNat_lt h)

end Inject

end Longfellow.Field2_128
