/-!
# The kernel

A fresh machine starts with a library of classes, which is a class file. It is written down here
line by line, section by section: first the definitions of all classes, a superclass before its
subclasses, then the methods of one class after the other. Line numbers count through the whole
text.
-/

namespace Smalltalk

namespace Kernel

/-- The definitions of the classes. -/
def classes : List String :=
  ["* semitalk kernel class library",
    "*",
    "* Classes must be defined after their superclass. Inside a method no line",
    "* may consist of a lone | or ] since those end the method.",
    "",
    "CLASS Object SUBCLASSOF nil",
    "CLASS UndefinedObject SUBCLASSOF Object",
    "CLASS Boolean SUBCLASSOF Object",
    "CLASS True SUBCLASSOF Boolean",
    "CLASS False SUBCLASSOF Boolean",
    "CLASS Magnitude SUBCLASSOF Object",
    "CLASS Character VARBYTESUBCLASSOF Magnitude",
    "CLASS Number SUBCLASSOF Magnitude",
    "CLASS ShortInteger SUBCLASSOF Number",
    "CLASS Float VARBYTESUBCLASSOF Number",
    "CLASS Collection SUBCLASSOF Object",
    "CLASS Array VARSUBCLASSOF Collection",
    "CLASS WordArray VARWORDSUBCLASSOF Collection",
    "CLASS String VARBYTESUBCLASSOF Collection",
    "CLASS Symbol VARBYTESUBCLASSOF String",
    "CLASS Link SUBCLASSOF Object VARS key value next",
    "CLASS Dictionary SUBCLASSOF Collection VARS hashTable",
    "CLASS SystemDictionary SUBCLASSOF Dictionary",
    "CLASS Method SUBCLASSOF Object VARS text selector code literals argSize tempSize stackSize " ++
      "methodClass",
    "CLASS Context SUBCLASSOF Object VARS caller ip stack sp",
    "CLASS MethodContext SUBCLASSOF Context VARS method receiver args temps state",
    "CLASS BlockContext SUBCLASSOF Context VARS argCount ipStart home",
    "CLASS Behavior SUBCLASSOF Object VARS name instType instSize methods superclass variables",
    "CLASS Class SUBCLASSOF Behavior",
    "CLASS Metaclass SUBCLASSOF Behavior",
    "CLASS Compiler SUBCLASSOF Object",
    ""]

/-- Methods of instances of Object. -/
def objectMethods : List String :=
  ["METHODS Object",
    "class",
    "    ^<11 self>",
    "|",
    "size",
    "    ^<12 self>",
    "|",
    "hash",
    "    ^<13 self>",
    "|",
    "== anObject",
    "    ^<20 self anObject>",
    "|",
    "= anObject",
    "    ^self == anObject",
    "|",
    "~= anObject",
    "    ^(self = anObject) not",
    "|",
    "~~ anObject",
    "    ^(self == anObject) not",
    "|",
    "at: index",
    "    ^<27 self index>",
    "|",
    "at: index put: value",
    "    ^<37 self index value>",
    "|",
    "yourself",
    "    ^self",
    "|",
    "isNil",
    "    ^false",
    "|",
    "notNil",
    "    ^true",
    "|",
    "ifNil: aBlock",
    "    ^self",
    "|",
    "printString",
    "    | name |",
    "    name := self class name.",
    "    (name at: 1) isVowel ifTrue: [^'an ' , name].",
    "    ^'a ' , name",
    "|",
    "printNl",
    "    self printString output.",
    "    (Character value: 10) output",
    "|",
    "halt: aString",
    "    ^<132 aString>",
    "]",
    ""]

/-- Methods of instances of UndefinedObject. -/
def undefinedObjectMethods : List String :=
  ["METHODS UndefinedObject",
    "isNil",
    "    ^true",
    "|",
    "notNil",
    "    ^false",
    "|",
    "ifNil: aBlock",
    "    ^aBlock value",
    "|",
    "printString",
    "    ^'nil'",
    "]",
    ""]

/-- Methods of instances of True. -/
def trueMethods : List String :=
  ["METHODS True",
    "ifTrue: trueBlock",
    "    ^trueBlock value",
    "|",
    "ifFalse: falseBlock",
    "    ^nil",
    "|",
    "ifTrue: trueBlock ifFalse: falseBlock",
    "    ^trueBlock value",
    "|",
    "ifFalse: falseBlock ifTrue: trueBlock",
    "    ^trueBlock value",
    "|",
    "not",
    "    ^false",
    "|",
    "and: aBlock",
    "    ^aBlock value",
    "|",
    "or: aBlock",
    "    ^true",
    "|",
    "& aBoolean",
    "    ^aBoolean",
    "|",
    "| aBoolean",
    "    ^true",
    "|",
    "printString",
    "    ^'true'",
    "]",
    ""]

/-- Methods of instances of False. -/
def falseMethods : List String :=
  ["METHODS False",
    "ifTrue: trueBlock",
    "    ^nil",
    "|",
    "ifFalse: falseBlock",
    "    ^falseBlock value",
    "|",
    "ifTrue: trueBlock ifFalse: falseBlock",
    "    ^falseBlock value",
    "|",
    "ifFalse: falseBlock ifTrue: trueBlock",
    "    ^falseBlock value",
    "|",
    "not",
    "    ^true",
    "|",
    "and: aBlock",
    "    ^false",
    "|",
    "or: aBlock",
    "    ^aBlock value",
    "|",
    "& aBoolean",
    "    ^false",
    "|",
    "| aBoolean",
    "    ^aBoolean",
    "|",
    "printString",
    "    ^'false'",
    "]",
    ""]

/-- Methods of instances of Magnitude. -/
def magnitudeMethods : List String :=
  ["METHODS Magnitude",
    "> aMagnitude",
    "    ^aMagnitude < self",
    "|",
    ">= aMagnitude",
    "    ^aMagnitude <= self",
    "|",
    "<= aMagnitude",
    "    ^(aMagnitude < self) not",
    "|",
    "between: low and: high",
    "    ^low <= self and: [self <= high]",
    "|",
    "max: aMagnitude",
    "    self < aMagnitude ifTrue: [^aMagnitude].",
    "    ^self",
    "|",
    "min: aMagnitude",
    "    self < aMagnitude ifTrue: [^self].",
    "    ^aMagnitude",
    "]",
    ""]

/-- Methods of instances of Character. -/
def characterMethods : List String :=
  ["METHODS Character",
    "value",
    "    ^<56 self>",
    "|",
    "< aCharacter",
    "    ^self value < aCharacter value",
    "|",
    "asString",
    "    ^(String new: 1) at: 1 put: self; yourself",
    "|",
    "isVowel",
    "    ^'aeiouAEIOU' includes: self",
    "|",
    "isDigit",
    "    ^self value between: 48 and: 57",
    "|",
    "output",
    "    ^<134 self>",
    "|",
    "printString",
    "    ^'$' , self asString",
    "]",
    ""]

/-- Methods of the class Character itself. -/
def characterClassMethods : List String :=
  ["CLASSMETHODS Character",
    "value: anInteger",
    "    ^<57 anInteger>",
    "|",
    "newline",
    "    ^self value: 10",
    "]",
    ""]

/-- Methods of instances of ShortInteger. -/
def shortIntegerMethods : List String :=
  ["METHODS ShortInteger",
    "+ aNumber",
    "    ^<60 self aNumber>",
    "|",
    "- aNumber",
    "    ^<61 self aNumber>",
    "|",
    "* aNumber",
    "    ^<68 self aNumber>",
    "|",
    "// aNumber",
    "    ^<69 self aNumber>",
    "|",
    "\\\\ aNumber",
    "    ^<67 self aNumber>",
    "|",
    "< aNumber",
    "    ^<251 self aNumber>",
    "|",
    "<= aNumber",
    "    ^<252 self aNumber>",
    "|",
    "> aNumber",
    "    ^aNumber < self",
    "|",
    ">= aNumber",
    "    ^aNumber <= self",
    "|",
    "= aNumber",
    "    ^self == aNumber",
    "|",
    "bitAnd: anInteger",
    "    ^<253 self anInteger>",
    "|",
    "bitOr: anInteger",
    "    ^<254 self anInteger>",
    "|",
    "bitXor: anInteger",
    "    ^<255 self anInteger>",
    "|",
    "negated",
    "    ^0 - self",
    "|",
    "abs",
    "    self < 0 ifTrue: [^self negated].",
    "    ^self",
    "|",
    "even",
    "    ^(self \\\\ 2) = 0",
    "|",
    "odd",
    "    ^self even not",
    "|",
    "factorial",
    "    self < 2 ifTrue: [^1].",
    "    ^self * (self - 1) factorial",
    "|",
    "timesRepeat: aBlock",
    "    1 to: self do: [:i | aBlock value]",
    "|",
    "to: stop do: aBlock",
    "    | i |",
    "    i := self.",
    "    [i <= stop] whileTrue: [aBlock value: i. i := i + 1]",
    "|",
    "printString",
    "    self < 0 ifTrue: [",
    "        self > -10 ifTrue: [^'-' , self negated printString].",
    "        ^'-' , (self // 10) negated printString , (self \\\\ 10) negated printString].",
    "    self < 10 ifTrue: [^(Character value: self + 48) asString].",
    "    ^(self // 10) printString , (self \\\\ 10) printString",
    "]",
    ""]

/-- Methods of instances of Collection. -/
def collectionMethods : List String :=
  ["METHODS Collection",
    "do: aBlock",
    "    1 to: self size do: [:i | aBlock value: (self at: i)]",
    "|",
    "includes: anObject",
    "    self do: [:each | each = anObject ifTrue: [^true]].",
    "    ^false",
    "|",
    "isEmpty",
    "    ^self size = 0",
    "|",
    "inject: initial into: aBlock",
    "    | result |",
    "    result := initial.",
    "    self do: [:each | result := aBlock value: result value: each].",
    "    ^result",
    "]",
    ""]

/-- Methods of instances of Array. -/
def arrayMethods : List String :=
  ["METHODS Array",
    "printString",
    "    | result |",
    "    result := '('.",
    "    self do: [:each | result := result , each printString , ' '].",
    "    ^result , ')'",
    "]",
    ""]

/-- Methods of the class Array itself. -/
def arrayClassMethods : List String :=
  ["CLASSMETHODS Array",
    "new",
    "    ^self new: 0",
    "|",
    "new: size",
    "    ^<23 self size>",
    "|",
    "with: anObject",
    "    ^(self new: 1) at: 1 put: anObject; yourself",
    "|",
    "with: first with: second",
    "    ^(self new: 2) at: 1 put: first; at: 2 put: second; yourself",
    "]",
    ""]

/-- Methods of instances of WordArray. -/
def wordArrayMethods : List String :=
  ["METHODS WordArray",
    "at: index",
    "    ^<25 self index>",
    "|",
    "at: index put: value",
    "    ^<35 self index value>",
    "]",
    ""]

/-- Methods of the class WordArray itself. -/
def wordArrayClassMethods : List String :=
  ["CLASSMETHODS WordArray",
    "new: size",
    "    ^<21 self size>",
    "]",
    ""]

/-- Methods of instances of String. -/
def stringMethods : List String :=
  ["METHODS String",
    ", aString",
    "    ^<24 self aString>",
    "|",
    "at: index",
    "    ^<29 self index>",
    "|",
    "at: index put: aCharacter",
    "    ^<39 self index aCharacter>",
    "|",
    "= aString",
    "    self == aString ifTrue: [^true].",
    "    aString class == self class ifFalse: [^false].",
    "    self size = aString size ifFalse: [^false].",
    "    1 to: self size do: [:i | (self at: i) == (aString at: i) ifFalse: [^false]].",
    "    ^true",
    "|",
    "asString",
    "    ^'' , self",
    "|",
    "output",
    "    ^<133 self>",
    "|",
    "displayNl",
    "    self output.",
    "    (Character value: 10) output",
    "|",
    "printString",
    "    | result |",
    "    result := ''''.",
    "    self do: [:c |",
    "        c == $' ifTrue: [result := result , ''''].",
    "        result := result , c asString].",
    "    ^result , ''''",
    "]",
    ""]

/-- Methods of the class String itself. -/
def stringClassMethods : List String :=
  ["CLASSMETHODS String",
    "new",
    "    ^self new: 0",
    "|",
    "new: size",
    "    ^<22 self size>",
    "|",
    "input",
    "    ^<130 self>",
    "]",
    ""]

/-- Methods of instances of Symbol. -/
def symbolMethods : List String :=
  ["METHODS Symbol",
    "= aSymbol",
    "    ^self == aSymbol",
    "|",
    "printString",
    "    ^'#' , self",
    "]",
    ""]

/-- Methods of instances of Link. -/
def linkMethods : List String :=
  ["METHODS Link",
    "key",
    "    ^key",
    "|",
    "key: anObject",
    "    key := anObject",
    "|",
    "value",
    "    ^value",
    "|",
    "value: anObject",
    "    value := anObject",
    "|",
    "next",
    "    ^next",
    "|",
    "next: aLink",
    "    next := aLink",
    "]",
    ""]

/-- Methods of instances of Dictionary. -/
def dictionaryMethods : List String :=
  ["METHODS Dictionary",
    "init: buckets",
    "    hashTable := Array new: buckets",
    "|",
    "at: key put: anObject",
    "    | index link |",
    "    index := key hash \\\\ hashTable size + 1.",
    "    link := hashTable at: index.",
    "    [link notNil] whileTrue: [",
    "        link key == key ifTrue: [link value: anObject. ^anObject].",
    "        link := link next].",
    "    link := Link new.",
    "    link key: key; value: anObject; next: (hashTable at: index).",
    "    hashTable at: index put: link.",
    "    ^anObject",
    "|",
    "at: key",
    "    ^self at: key ifAbsent: [nil]",
    "|",
    "at: key ifAbsent: aBlock",
    "    | link |",
    "    link := hashTable at: key hash \\\\ hashTable size + 1.",
    "    [link notNil] whileTrue: [",
    "        link key == key ifTrue: [^link value].",
    "        link := link next].",
    "    ^aBlock value",
    "|",
    "includesKey: key",
    "    self at: key ifAbsent: [^false].",
    "    ^true",
    "|",
    "do: aBlock",
    "    1 to: hashTable size do: [:i | | link |",
    "        link := hashTable at: i.",
    "        [link notNil] whileTrue: [aBlock value: link value. link := link next]]",
    "]",
    ""]

/-- Methods of the class Dictionary itself. -/
def dictionaryClassMethods : List String :=
  ["CLASSMETHODS Dictionary",
    "new",
    "    ^super new init: 7",
    "]",
    ""]

/-- Methods of instances of SystemDictionary. -/
def systemDictionaryMethods : List String :=
  ["METHODS SystemDictionary",
    "shutDown",
    "    ^<7 self>",
    "]",
    ""]

/-- Methods of instances of Method. -/
def methodMethods : List String :=
  ["METHODS Method",
    "selector",
    "    ^selector",
    "|",
    "text",
    "    ^text",
    "|",
    "argSize",
    "    ^argSize",
    "|",
    "methodClass",
    "    ^methodClass",
    "|",
    "printString",
    "    ^methodClass printString , '>>' , selector",
    "]",
    "",
    "* whileTrue: and whileFalse: recurse, so every iteration keeps a context",
    "* alive until the loop ends (a hundred-odd bytes each). Loops built on them",
    "* (to:do:, timesRepeat:, Dictionary do:) run ten thousand iterations in the",
    "* default 1 MiB semispace but not fifty thousand; pass a larger",
    "* --semispace-size for longer loops."]

/-- Methods of instances of BlockContext. -/
def blockContextMethods : List String :=
  ["METHODS BlockContext",
    "value",
    "    ^<90 self>",
    "|",
    "value: a",
    "    ^<90 self a>",
    "|",
    "value: a value: b",
    "    ^<90 self a b>",
    "|",
    "value: a value: b value: c",
    "    ^<90 self a b c>",
    "|",
    "numArgs",
    "    ^argCount",
    "|",
    "whileTrue: aBlock",
    "    self value ifFalse: [^nil].",
    "    aBlock value.",
    "    ^self whileTrue: aBlock",
    "|",
    "whileFalse: aBlock",
    "    self value ifTrue: [^nil].",
    "    aBlock value.",
    "    ^self whileFalse: aBlock",
    "]",
    ""]

/-- Methods of instances of Behavior. -/
def behaviorMethods : List String :=
  ["METHODS Behavior",
    "new",
    "    ^<23 self instSize>",
    "|",
    "new: size",
    "    ^<23 self (instSize + size)>",
    "|",
    "name",
    "    ^name",
    "|",
    "instSize",
    "    ^instSize",
    "|",
    "methods",
    "    ^methods",
    "|",
    "superclass",
    "    ^superclass",
    "|",
    "compile: source",
    "    | method |",
    "    method := Compiler compile: source in: self lastValueNeeded: false.",
    "    method isNil ifTrue: [^nil].",
    "    methods at: method selector put: method.",
    "    ^method",
    "|",
    "printString",
    "    ^name asString",
    "]",
    ""]

/-- Methods of the class Compiler itself. -/
def compilerClassMethods : List String :=
  ["CLASSMETHODS Compiler",
    "compile: source in: aClass lastValueNeeded: aBoolean",
    "    ^<30 source aClass aBoolean>",
    "]"]

/-- All lines of the kernel. -/
def lines : List String :=
  List.flatten
    [classes, objectMethods, undefinedObjectMethods, trueMethods, falseMethods,
      magnitudeMethods, characterMethods, characterClassMethods, shortIntegerMethods,
      collectionMethods, arrayMethods, arrayClassMethods, wordArrayMethods,
      wordArrayClassMethods, stringMethods, stringClassMethods, symbolMethods, linkMethods,
      dictionaryMethods, dictionaryClassMethods, systemDictionaryMethods, methodMethods,
      blockContextMethods, behaviorMethods, compilerClassMethods]

/-- The text of the kernel. -/
def text : String := String.join (lines.map (· ++ "\n"))

end Kernel

end Smalltalk
