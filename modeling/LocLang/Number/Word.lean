namespace LocLang.Number

/-- What a word of 32 bits holds in place of an integer. -/
def wrapInt32 (n : Int) : Int :=
  n.bmod 0x100000000

/-- What a word of 64 bits holds in place of an integer. -/
def wrapInt64 (n : Int) : Int :=
  n.bmod 0x10000000000000000

end LocLang.Number
