import Mathlib.Logic.Function.Basic

/-!
# Cipher block chaining

A block cipher `e` with inverse `d`, and an operation `x` on blocks that undoes itself. Each block
is combined with the cipher block before it and then enciphered.
-/

namespace GenOS.Cbc

variable {B : Type*} {e d : B → B} {x : B → B → B}

/-- The cipher blocks; `prev` is the one before. -/
def encrypt (e : B → B) (x : B → B → B) : (prev : B) → List B → List B
  | _, [] => []
  | prev, b :: bs => e (x b prev) :: encrypt e x (e (x b prev)) bs

def decrypt (d : B → B) (x : B → B → B) : (prev : B) → List B → List B
  | _, [] => []
  | prev, c :: cs => x (d c) prev :: decrypt d x c cs

theorem length_encrypt (prev : B) (bs : List B) : (encrypt e x prev bs).length = bs.length := by
  induction bs generalizing prev with
  | nil => rfl
  | cons b bs ih => rw [encrypt, List.length_cons, List.length_cons, ih]

theorem length_decrypt (prev : B) (cs : List B) : (decrypt d x prev cs).length = cs.length := by
  induction cs generalizing prev with
  | nil => rfl
  | cons c cs ih => rw [decrypt, List.length_cons, List.length_cons, ih]

theorem decrypt_encrypt (hd : Function.LeftInverse d e) (hx : ∀ b p, x (x b p) p = b) (prev : B)
    (bs : List B) : decrypt d x prev (encrypt e x prev bs) = bs := by
  induction bs generalizing prev with
  | nil => rfl
  | cons b bs ih => rw [encrypt, decrypt, ih, hd, hx]

theorem encrypt_decrypt (he : Function.LeftInverse e d) (hx : ∀ b p, x (x b p) p = b) (prev : B)
    (cs : List B) : encrypt e x prev (decrypt d x prev cs) = cs := by
  induction cs generalizing prev with
  | nil => rfl
  | cons c cs ih => rw [decrypt, encrypt, hx, he, ih]

end GenOS.Cbc
