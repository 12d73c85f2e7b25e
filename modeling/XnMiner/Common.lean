import XnMiner.Text.Json

/-! # Data shared by the miner's components

`std::string` is a byte string, `int` and `int64_t` are integers, and times of the
system clock are rational seconds.
-/
namespace XnMiner
open TextCodec

def zeroDouble : Double := .finite ⟨"0.0".toList, by decide, by decide +kernel⟩

structure BlockHit where
  key : Str := []
  hashStr : Str := []
  blockType : Str := []
  attempts : ℤ := 0
  strategy : Str := "random".toList
  hps : Double := zeroDouble
  foundAt : Str := []
  memoryCost : Option ℤ := none
  deriving DecidableEq

structure NetworkStatus where
  ok : Bool := false
  difficulty : Option ℤ := none
  error : Str := []
  seq : ℕ := 0
  deriving DecidableEq

def upper (s : Str) : Str := s.map Char.toUpper

def lower (s : Str) : Str := s.map Char.toLower

def contains (s pat : Str) : Bool :=
  match s with
  | [] => pat.isEmpty
  | c :: cs => pat.isPrefixOf (c :: cs) || contains cs pat

end XnMiner
