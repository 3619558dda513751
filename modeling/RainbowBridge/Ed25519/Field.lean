import RainbowBridge.Lib.Primality

namespace RainbowBridge.Ed25519

open RainbowBridge.Lib

def p : Nat := 2 ^ 255 - 19

def L : Nat := 2 ^ 252 + 27742317777372353535851937790883648493

theorem prime_p : p.Prime := by
  have q1 : Nat.Prime 1923133 :=
    have test : Certified _ 2 ([2, 2, 3, 43, 3727] ++ []) := by decide +kernel
    test.prime (by norm_num) trivial
  have q2 : Nat.Prime 31757755568855353 :=
    have test : Certified _ 10 ([2, 2, 2, 3, 31, 107, 223, 4153, 430751] ++ []) := by decide +kernel
    test.prime (by norm_num) trivial
  have q3 : Nat.Prime 2773320623 :=
    have test : Certified _ 5 ([2, 2437, 569003] ++ []) := by decide +kernel
    test.prime (by norm_num) trivial
  have q4 : Nat.Prime 72106336199 :=
    have test : Certified _ 7 ([2, 13] ++ [2773320623]) := by decide +kernel
    test.prime (by norm_num) q3
  have q5 : Nat.Prime 8574133 :=
    have test : Certified _ 2 ([2, 2, 3, 7, 103, 991] ++ []) := by decide +kernel
    test.prime (by norm_num) trivial
  have q6 : Nat.Prime 1919519569386763 :=
    have test : Certified _ 2 ([2, 3, 7, 19, 47, 47, 127] ++ [8574133]) := by decide +kernel
    test.prime (by norm_num) q5
  have q7 : Nat.Prime 75445702479781427272750846543864801 :=
    have test : Certified _ 7 ([2, 2, 2, 2, 2, 3, 3, 5, 5, 75707] ++ [72106336199, 1919519569386763]) := by decide +kernel
    test.prime (by norm_num) ⟨q4, q6⟩
  have q8 : Nat.Prime 74058212732561358302231226437062788676166966415465897661863160754340907 :=
    have test : Certified _ 2 ([2, 3, 353, 57467, 132049] ++ [1923133, 31757755568855353, 75445702479781427272750846543864801]) := by decide +kernel
    test.prime (by norm_num) ⟨q1, q2, q7⟩
  have test : Certified p 2 ([2, 2, 3, 65147] ++ [74058212732561358302231226437062788676166966415465897661863160754340907]) := by decide +kernel
  exact test.prime (by norm_num) q8

theorem prime_L : L.Prime := by
  have q1 : Nat.Prime 14741173 :=
    have test : Certified _ 2 ([2, 2, 3, 3, 409477] ++ []) := by decide +kernel
    test.prime (by norm_num) trivial
  have q2 : Nat.Prime 58964693 :=
    have test : Certified _ 2 ([2, 2] ++ [14741173]) := by decide +kernel
    test.prime (by norm_num) q1
  have q3 : Nat.Prime 3044861653679985063343 :=
    have test : Certified _ 5 ([2, 3, 11, 30703, 82163, 132667, 137849] ++ []) := by decide +kernel
    test.prime (by norm_num) trivial
  have q4 : Nat.Prime 198211423230930754013084525763697 :=
    have test : Certified _ 5 ([2, 2, 2, 2, 3, 23] ++ [58964693, 3044861653679985063343]) := by decide +kernel
    test.prime (by norm_num) ⟨q2, q3⟩
  have q5 : Nat.Prime 292386187 :=
    have test : Certified _ 2 ([2, 3, 3, 3, 3, 307, 5879] ++ []) := by decide +kernel
    test.prime (by norm_num) trivial
  have q6 : Nat.Prime 213441916511 :=
    have test : Certified _ 13 ([2, 5, 73] ++ [292386187]) := by decide +kernel
    test.prime (by norm_num) q5
  have q7 : Nat.Prime 1224481 :=
    have test : Certified _ 13 ([2, 2, 2, 2, 2, 3, 5, 2551] ++ []) := by decide +kernel
    test.prime (by norm_num) trivial
  have q8 : Nat.Prime 1257559732178653 :=
    have test : Certified _ 2 ([2, 2, 3, 7, 23, 531581] ++ [1224481]) := by decide +kernel
    test.prime (by norm_num) q7
  have q9 : Nat.Prime 4434155615661930479 :=
    have test : Certified _ 17 ([2, 41, 43] ++ [1257559732178653]) := by decide +kernel
    test.prime (by norm_num) q8
  have q10 : Nat.Prime 172054593956031949258510691 :=
    have test : Certified _ 2 ([2, 5, 1361, 2851] ++ [4434155615661930479]) := by decide +kernel
    test.prime (by norm_num) q9
  have q11 : Nat.Prime 19757330305831588566944191468367130476339 :=
    have test : Certified _ 2 ([2, 269] ++ [213441916511, 172054593956031949258510691]) := by decide +kernel
    test.prime (by norm_num) ⟨q6, q10⟩
  have q12 : Nat.Prime 276602624281642239937218680557139826668747 :=
    have test : Certified _ 2 ([2, 7] ++ [19757330305831588566944191468367130476339]) := by decide +kernel
    test.prime (by norm_num) q11
  have test : Certified L 2 ([2, 2, 3, 11] ++ [198211423230930754013084525763697, 276602624281642239937218680557139826668747]) := by decide +kernel
  exact test.prime (by norm_num) ⟨q4, q12⟩

end RainbowBridge.Ed25519
